import Secp256k1.Ecmult.Ranges
import Secp256k1.Group.Law
import Secp256k1.Group.Points

/-!
# Tables of odd multiples

The entries of a table are the odd multiples of a point of the curve. They are computed with z
coordinates that lack the one of the double, and with the ratio of each to the one before it: `Z i`
is the value of the z coordinate of entry `i`, without that factor. The ratios bring all entries to
the last z coordinate, or to one.
-/

namespace Secp256k1

open ShortCurve

section

variable {P : Point} (hP : P ≠ 0)

include hP in
/-- An odd multiple below the order is neither the double nor its opposite. -/
theorem odd_smul_ne {i : ℕ} (hi : 2 * i + 3 < n) :
    (2 * i + 1) • P ≠ P + P ∧ (2 * i + 1) • P ≠ -(P + P) := by
  have hpos : ∀ {k : ℕ}, 0 < k → k < n → k • P ≠ 0 := fun hk hkn h0 =>
    absurd (Nat.le_of_dvd hk ((smul_eq_zero_iff hP).mp h0)) (not_le.mpr hkn)
  constructor
  · intro h
    rcases Nat.eq_zero_or_pos i with rfl | h1
    · rw [Nat.mul_zero, Nat.zero_add, one_nsmul] at h
      exact hP (left_eq_add.mp h)
    · refine hpos (show 0 < 2 * i - 1 by omega) (by omega) ?_
      rw [← two_nsmul, show 2 * i + 1 = 2 * i - 1 + 2 by omega, add_nsmul] at h
      exact add_eq_right.mp h
  · intro h
    refine hpos (show 0 < 2 * i + 3 by omega) hi ?_
    rw [← two_nsmul, eq_neg_iff_add_eq_zero, ← add_nsmul] at h
    exact h

variable {F : Type} {B : FieldOps F}

/-- The first `k` entries of the table, with the values of their z coordinates. -/
structure OddTable (M : FieldModel B (ZMod p)) (w : ZMod p) (P : Point) (k : ℕ) (prej : ℕ → Gej F)
    (zr : ℕ → F) (Z : ℕ → ZMod p) : Prop where
  entry : ∀ i < k, ∃ X Y, (prej i).infinity = false ∧ M.rep 8 X (prej i).x ∧
    M.rep 8 Y (prej i).y ∧ Jac X Y (Z i * w) ((2 * i + 1) • P)
  z : ∀ i < k, ∃ v, M.raw 8 v (prej i).z
  first : M.within 8 (zr 0)
  ratio : ∀ i, i + 1 < k → ∃ h, M.rep 8 h (zr (i + 1)) ∧ Z (i + 1) = Z i * h

variable {M : FieldModel B (ZMod p)}

/-- Where only reduced elements are in range, all that the table holds is. -/
theorem OddTable.within (hraw : ∀ {v a}, M.raw 8 v a → M.rep 8 v a) {w : ZMod p} {k : ℕ}
    {prej : ℕ → Gej F} {zr : ℕ → F} {Z : ℕ → ZMod p} (h : OddTable M w P k prej zr Z) :
    TableWithin M k prej zr := by
  refine ⟨fun i hi => ?_, fun i hi => ?_⟩
  · obtain ⟨X, Y, -, hx, hy, -⟩ := h.entry i hi
    obtain ⟨v, hz⟩ := h.z i hi
    exact ⟨⟨X, hx⟩, ⟨Y, hy⟩, ⟨v, hraw hz⟩⟩
  · cases i with
    | zero => exact h.first
    | succ i =>
      obtain ⟨v, hv, -⟩ := h.ratio i hi
      exact ⟨v, hv⟩

theorem OddTable.push {w : ZMod p} {k : ℕ} {prej : ℕ → Gej F} {zr : ℕ → F} {Z : ℕ → ZMod p}
    (ht : OddTable M w P (k + 1) prej zr Z) {r : Gej F} {h : F} {X Y v H : ZMod p}
    (hinf : r.infinity = false) (hx : M.rep 8 X r.x) (hy : M.rep 8 Y r.y) (hz : M.raw 8 v r.z)
    (hjac : Jac X Y (Z k * H * w) ((2 * (k + 1) + 1) • P)) (hh : M.rep 8 H h) :
    OddTable M w P (k + 2) (Function.update prej (k + 1) r) (Function.update zr (k + 1) h)
      (Function.update Z (k + 1) (Z k * H)) := by
  refine ⟨fun i hi => ?_, fun i hi => ?_, ?_, fun i hi => ?_⟩
  · by_cases hik : i = k + 1
    · subst hik
      simp only [Function.update_self]
      exact ⟨X, Y, hinf, hx, hy, hjac⟩
    · simp only [Function.update_of_ne hik]
      exact ht.entry i (by omega)
  · by_cases hik : i = k + 1
    · subst hik
      rw [Function.update_self]
      exact ⟨v, hz⟩
    · rw [Function.update_of_ne hik]
      exact ht.z i (by omega)
  · rw [Function.update_of_ne (by omega)]
    exact ht.first
  · rw [Function.update_of_ne (show i ≠ k + 1 by omega)]
    by_cases hik : i = k
    · subst hik
      simp only [Function.update_self]
      exact ⟨H, hh, rfl⟩
    · simp only [Function.update_of_ne (show i + 1 ≠ k + 1 by omega)]
      exact ht.ratio i (by omega)

/-- The z coordinates of the entries are read for the last entry only. -/
theorem OddTable.setZ {w : ZMod p} {k : ℕ} {prej : ℕ → Gej F} {zr : ℕ → F} {Z : ℕ → ZMod p}
    (ht : OddTable M w P k prej zr Z) (j : ℕ) {z : F} {v : ZMod p} (hz : M.raw 8 v z) :
    OddTable M w P k (Function.update prej j { prej j with z }) zr Z := by
  refine ⟨fun i hi => ?_, fun i hi => ?_, ht.first, ht.ratio⟩
  · by_cases hij : i = j
    · subst hij
      simp only [Function.update_self]
      exact ht.entry i hi
    · simp only [Function.update_of_ne hij]
      exact ht.entry i hi
  · by_cases hij : i = j
    · subst hij
      simp only [Function.update_self]
      exact ⟨v, hz⟩
    · rw [Function.update_of_ne hij]
      exact ht.z i hi

variable (hM : M.MulInt) (hzero : ∀ {v b}, M.zero v b → (b = true ↔ v = 0))

section

include hP hM hzero

/-- The addition of a table entry: it is neither a doubling nor does it cancel. -/
theorem oddMultiplesStep {w x y : ZMod p} {dGe : Ge F} (hdx : M.rep 8 x dGe.x)
    (hdy : M.rep 8 y dGe.y) (hdinf : dGe.infinity = false) (hd : Jac x y w (P + P)) {i : ℕ}
    (hi : 2 * i + 3 < n) (r : Gej F) {a : Gej F} {X Y Z : ZMod p} (hinf : a.infinity = false)
    (hx : M.rep 8 X a.x) (hy : M.rep 8 Y a.y) (hz : M.raw 8 Z a.z)
    (hjac : Jac X Y (Z * w) ((2 * i + 1) • P)) (z : F) :
    Yields (gejAddGeVar B r a dGe (some z)) fun t => ∃ X Y H h, t.1.infinity = false ∧
      M.rep 8 X t.1.x ∧ M.rep 8 Y t.1.y ∧ M.raw 8 (Z * H) t.1.z ∧
      Jac X Y (Z * H * w) ((2 * (i + 1) + 1) • P) ∧ t.2 = some h ∧ M.rep 8 H h := by
  obtain ⟨hne, hne'⟩ := odd_smul_ne hP hi
  have hH : x * Z ^ 2 - X ≠ 0 := by
    intro h0
    by_cases hI : y * Z ^ 3 - Y = 0
    · exact hne (hjac.eq_of_eq hd h0 hI)
    · exact hne' (hjac.eq_neg_of_ne hd h0 hI)
  refine gejAddGeVar_spec hM hx hy hz (M.raw_of_rep hdx) (M.raw_of_rep hdy) hinf hdinf rfl rfl
    (fun h _ => absurd ((hzero h).mp rfl) hH) (fun h _ => absurd ((hzero h).mp rfl) hH)
    fun h x' y' z' _ hh hx' hy' hz' => ?_
  have hsum := hjac.add hd rfl rfl hH
  rw [← two_nsmul, ← add_nsmul, show 2 * i + 1 + 2 = 2 * (i + 1) + 1 by omega] at hsum
  exact ⟨_, _, _, h, rfl, M.rep_mono (by norm_num) hx', M.rep_mono (by norm_num) hy',
    FieldModel.raw8 hz' (by norm_num), hsum, rfl, M.rep_mono (by norm_num) hh⟩

/-- The loop goes from the entry `i` to the entry `i + k`. -/
theorem oddMultiplesLoop_odd {w x y : ZMod p} {dGe : Ge F} (hdx : M.rep 8 x dGe.x)
    (hdy : M.rep 8 y dGe.y) (hdinf : dGe.infinity = false) (hd : Jac x y w (P + P)) (k i : ℕ)
    (hi : 2 * (i + k) + 1 < n) {prej : ℕ → Gej F} {zr : ℕ → F} {Z : ℕ → ZMod p}
    (ht : OddTable M w P (i + 1) prej zr Z) (hlast : M.raw 8 (Z i) (prej i).z) :
    Yields (oddMultiplesLoop B dGe k (i + 1) prej zr) fun t => ∃ Z,
      OddTable M w P (i + 1 + k) t.1 t.2 Z ∧ M.raw 8 (Z (i + k)) (t.1 (i + k)).z := by
  induction k generalizing i prej zr Z with
  | zero => exact .some ⟨Z, ht, hlast⟩
  | succ k ih =>
    obtain ⟨X, Y, hinf, hx, hy, hjac⟩ := ht.entry i (by omega)
    refine (oddMultiplesStep hP hM hzero hdx hdy hdinf hd (by omega) (prej (i + 1)) hinf hx hy hlast
      hjac (zr (i + 1))).bind ?_
    rintro ⟨r, rzr⟩ ⟨X', Y', H, h, hinf', hx', hy', hz', hjac', rfl, hh⟩
    rw [show i + 1 + (k + 1) = i + 1 + 1 + k by omega, show i + (k + 1) = i + 1 + k by omega]
    refine ih (i + 1) (by omega) (ht.push hinf' hx' hy' hz' hjac' hh) ?_
    rwa [Function.update_self, Function.update_self]

/-- The table as it is left: the last z coordinate is the whole one. -/
theorem ecmultOddMultiplesTable_odd {N : ℕ} (hN : 0 < N) (hNn : 2 * N < n) (mem : TableMemory F)
    {a : Gej F} {X Y Z : ZMod p} (hinf : a.infinity = false) (hx : M.raw 8 X a.x)
    (hy : M.raw 8 Y a.y) (hz : M.raw 8 Z a.z) (hjac : Jac X Y Z P) :
    Yields (ecmultOddMultiplesTable B N mem a) fun t => ∃ w Z, OddTable M w P N t.1 t.2 Z ∧
      M.rep 1 (Z (N - 1) * w) (t.1 (N - 1)).z := by
  have hY : Y ≠ 0 := by
    obtain ⟨hZ, x, y, h, -, -, rfl⟩ := hjac
    exact mul_ne_zero (nonsingular_iff.mp h).y_ne_zero (mul_ne_zero (mul_ne_zero hZ hZ) hZ)
  refine (gejDoubleVar_spec hM (.inl rfl) hx hy hz mem.d hinf).bind fun d hd => ?_
  obtain ⟨-, hdx, hdy, hdz, -⟩ := hd
  have hdjac := hjac.double two_ne_zero_mod hY
  generalize 9 * X ^ 4 - 8 * X * Y ^ 2 = x at hdx hdjac
  generalize 36 * X ^ 3 * Y ^ 2 - 27 * X ^ 6 - 8 * Y ^ 4 = y at hdy hdjac
  generalize 2 * Y * Z = w at hdz hdjac
  have hdz8 := M.rep_mono (show 2 ≤ 8 by norm_num) hdz
  refine (geSetGejZinv_spec hx hy (M.raw_of_rep hdz8)).bind fun aGe haGe => ?_
  obtain ⟨-, hax, hay⟩ := haGe
  have htable : OddTable M w P 1 (Function.update mem.prej 0 ⟨aGe.x, aGe.y, a.z, false⟩)
      (Function.update mem.zr 0 d.1.z) fun _ => Z := by
    refine ⟨fun i hi => ?_, fun i hi => ?_, ?_, fun i hi => absurd hi (by omega)⟩
    · obtain rfl := Nat.lt_one_iff.mp hi
      simp only [Function.update_self]
      rw [Nat.mul_zero, Nat.zero_add, one_nsmul]
      exact ⟨_, _, trivial, M.rep_mono (by norm_num) hax, M.rep_mono (by norm_num) hay,
        hjac.scale hdjac.1⟩
    · obtain rfl := Nat.lt_one_iff.mp hi
      rw [Function.update_self]
      exact ⟨Z, hz⟩
    · rw [Function.update_self]
      exact ⟨w, hdz8⟩
  have hloop : Yields (oddMultiplesLoop B ⟨d.1.x, d.1.y, false⟩ (N - 1) 1
      (Function.update mem.prej 0 ⟨aGe.x, aGe.y, a.z, false⟩) (Function.update mem.zr 0 d.1.z))
      fun t => ∃ Z, OddTable M w P (0 + 1 + (N - 1)) t.1 t.2 Z ∧
        M.raw 8 (Z (0 + (N - 1))) (t.1 (0 + (N - 1))).z :=
    oddMultiplesLoop_odd hP hM hzero (M.rep_mono (by norm_num) hdx) (M.rep_mono (by norm_num) hdy)
      rfl hdjac (N - 1) 0 (by omega) htable (by rwa [Function.update_self])
  rw [show 0 + 1 + (N - 1) = N by omega, Nat.zero_add] at hloop
  refine hloop.bind fun t ht => ?_
  obtain ⟨Z', ht, hlast⟩ := ht
  refine (M.mul hlast (M.raw_of_rep hdz8)).bind fun z hz => .pure ⟨w, Z', ?_, ?_⟩
  · exact ht.setZ (N - 1) (FieldModel.raw8 hz (by norm_num))
  · simp only [Function.update_self]
    exact hz

end

/-! ## One z coordinate for all entries -/

section

variable {w : ZMod p} {N : ℕ} {prej : ℕ → Gej F} {zr : ℕ → F} {Z : ℕ → ZMod p}

/-- An entry brought to the z coordinate `Z i * ρ * w`. -/
theorem OddTable.zinv (ht : OddTable M w P N prej zr Z) {i : ℕ} (hi : i < N) {zi : F} {ρ : ZMod p}
    (hzi : M.raw 8 ρ zi) (hρ : ρ ≠ 0) :
    Yields (geSetGejZinv B (prej i) zi) (GeAt M (Z i * w * ρ) ((2 * i + 1) • P)) := by
  obtain ⟨X, Y, hinf, hx, hy, hjac⟩ := ht.entry i hi
  refine (geSetGejZinv_spec (M.raw_of_rep hx) (M.raw_of_rep hy) hzi).mono fun q hq => ?_
  obtain ⟨hqinf, hqx, hqy⟩ := hq
  exact ⟨_, _, hqinf.trans hinf, M.rep_mono (by norm_num) hqx, M.rep_mono (by norm_num) hqy,
    hjac.scale hρ⟩

theorem OddTable.z_ne (ht : OddTable M w P N prej zr Z) {i : ℕ} (hi : i < N) : Z i * w ≠ 0 := by
  obtain ⟨X, Y, -, -, -, hjac⟩ := ht.entry i hi
  exact hjac.1

/-- What the loop knows of `zs` before it takes the ratio of the entry `i` in: at its first turn,
`zs` is that ratio. -/
def Ratio (M : FieldModel B (ZMod p)) (N : ℕ) (zr : ℕ → F) (Z : ℕ → ZMod p) (i : ℕ) (zs : F) :
    Prop :=
  i = N - 1 ∧ zs = zr i ∨ i ≠ N - 1 ∧ ∃ ρ, M.rep 8 ρ zs ∧ Z i * ρ = Z (N - 1)

theorem globalzLoop_at (ht : OddTable M w P N prej zr Z) (i : ℕ) (hi : i < N) (r : ℕ → Ge F)
    (zs : F) (hzs : Ratio M N zr Z i zs)
    (hr : ∀ j < N, i ≤ j → GeAt M (Z (N - 1) * w) ((2 * j + 1) • P) (r j)) :
    Yields (globalzLoop B N prej zr i r zs) fun r =>
      ∀ j < N, GeAt M (Z (N - 1) * w) ((2 * j + 1) • P) (r j) := by
  induction i generalizing r zs with
  | zero => exact .some fun j hj => hr j hj (Nat.zero_le j)
  | succ i ih =>
    have hrest : ∀ zs ρ, M.rep 8 ρ zs → Z i * ρ = Z (N - 1) →
        Yields (geSetGejZinv B (prej i) zs >>= fun q =>
          globalzLoop B N prej zr i (Function.update r i q) zs) fun r =>
            ∀ j < N, GeAt M (Z (N - 1) * w) ((2 * j + 1) • P) (r j) := by
      intro zs ρ hzs hρ
      have hρ0 : ρ ≠ 0 := by
        rintro rfl
        rw [mul_zero] at hρ
        exact ht.z_ne (show N - 1 < N by omega) (by rw [← hρ, zero_mul])
      refine (ht.zinv (by omega) (M.raw_of_rep hzs) hρ0).bind fun q hq => ?_
      rw [mul_right_comm, hρ] at hq
      refine ih (by omega) _ _ (.inr ⟨by omega, ρ, hzs, hρ⟩) fun j hj hij => ?_
      by_cases hji : j = i
      · subst hji
        rwa [Function.update_self]
      · rw [Function.update_of_ne hji]
        exact hr j hj (by omega)
    obtain ⟨h, hh, hZ⟩ := ht.ratio i hi
    rw [globalzLoop]
    rcases hzs with ⟨hN, rfl⟩ | ⟨hN, ρ, hρ, hval⟩
    · rw [if_neg (not_not.mpr hN)]
      exact hrest _ h hh (by rw [← hN, hZ])
    · rw [if_pos hN]
      refine (FieldModel.prod hρ hh le_rfl le_rfl).bind fun zs hzs => ?_
      exact hrest zs _ (M.rep_mono (by norm_num) hzs) (by rw [← hval, hZ]; ring)

theorem geGlobalzSetTableGej_at (hN : 0 < N) (ht : OddTable M w P N prej zr Z)
    (hlast : M.rep 1 (Z (N - 1) * w) (prej (N - 1)).z) (r : ℕ → Ge F) (globalz : F) :
    Yields (geGlobalzSetTableGej B N r globalz prej zr) fun t => ∃ g, g ≠ 0 ∧ M.rep 1 g t.2 ∧
      ∀ j < N, GeAt M g ((2 * j + 1) • P) (t.1 j) := by
  have hi : N - 1 < N := by omega
  obtain ⟨X, Y, hinf, hx, hy, hjac⟩ := ht.entry (N - 1) hi
  rw [geGlobalzSetTableGej, if_pos hN]
  refine (globalzLoop_at ht (N - 1) hi _ _ (.inl ⟨rfl, rfl⟩) fun j hj hij => ?_).bind
    fun r hr => .pure ⟨_, ht.z_ne hi, hlast, hr⟩
  obtain rfl : j = N - 1 := by omega
  rw [Function.update_self]
  exact ⟨X, Y, rfl, hx, hy, hjac⟩

/-! ## Affine entries -/

theorem setTableLoop_at (ht : OddTable M w P N prej zr Z) (i : ℕ) (hi : i < N) (r : ℕ → Ge F)
    {zi : F} {ζ : ZMod p} (hzi : M.rep 8 ζ zi) (hζ : Z i * w * ζ = 1)
    (hr : ∀ j < N, i ≤ j → GeAt M 1 ((2 * j + 1) • P) (r j)) :
    Yields (setTableLoop B prej zr i r zi) fun r => ∀ j < N, GeAt M 1 ((2 * j + 1) • P) (r j) := by
  induction i generalizing r zi ζ with
  | zero => exact .some fun j hj => hr j hj (Nat.zero_le j)
  | succ i ih =>
    obtain ⟨h, hh, hZ⟩ := ht.ratio i hi
    refine (FieldModel.prod hzi hh le_rfl le_rfl).bind fun zi hzi => ?_
    have hone : Z i * w * (ζ * h) = 1 := by
      rw [← hζ, hZ]
      ring
    refine (ht.zinv (show i < N by omega) (FieldModel.raw8 hzi (by norm_num))
      (right_ne_zero_of_mul_eq_one hone)).bind fun q hq => ?_
    rw [hone] at hq
    refine ih (by omega) _ (M.rep_mono (by norm_num) hzi) hone fun j hj hij => ?_
    by_cases hji : j = i
    · subst hji
      rwa [Function.update_self]
    · rw [Function.update_of_ne hji]
      exact hr j hj (by omega)

theorem geSetTableGejVar_at (hN : 0 < N) (ht : OddTable M w P N prej zr Z)
    (hlast : M.rep 1 (Z (N - 1) * w) (prej (N - 1)).z) (r : ℕ → Ge F) :
    Yields (geSetTableGejVar B r prej zr N) fun r => ∀ j < N, GeAt M 1 ((2 * j + 1) • P) (r j) := by
  have hi : N - 1 < N := by omega
  have hone : Z (N - 1) * w * (Z (N - 1) * w) ^ (p - 2) = 1 := by
    rw [mul_comm]
    exact pow_sub_two_mul (ht.z_ne hi)
  rw [geSetTableGejVar, if_pos hN]
  refine (feInv_spec M (by norm_num) (M.raw_of_rep hlast)).bind fun zi hzi => ?_
  refine (ht.zinv hi (FieldModel.raw8 hzi (by norm_num)) (right_ne_zero_of_mul_eq_one hone)).bind
    fun q hq => ?_
  rw [hone] at hq
  refine setTableLoop_at ht (N - 1) hi _ (M.rep_mono (by norm_num) hzi) hone fun j hj hij => ?_
  obtain rfl : j = N - 1 := by omega
  rwa [Function.update_self]

end

end

/-! ## Tables in memory -/

section

/-- The coordinates of the point, as either backend stores them. -/
def StoredAt (P : Point) (s : GeStorage) : Prop :=
  ∃ x y h, P = .some x y h ∧ s.x.val = x.val ∧ s.y.val = y.val

theorem StoredAt.unique {P : Point} {s t : GeStorage} (hs : StoredAt P s) (ht : StoredAt P t) :
    s = t := by
  obtain ⟨x, y, h, rfl, hx, hy⟩ := hs
  obtain ⟨x', y', h', heq, hx', hy'⟩ := ht
  obtain ⟨rfl, rfl⟩ := WeierstrassCurve.Affine.Point.some.inj heq
  obtain ⟨sx, sy⟩ := s
  obtain ⟨tx, ty⟩ := t
  obtain rfl := FeStorage.val_inj (hx.trans hx'.symm)
  obtain rfl := FeStorage.val_inj (hy.trans hy'.symm)
  rfl

variable {F : Type} {B : FieldOps F} {M : FieldValues B} {P : Point}

theorem geToStorage_at {q : Ge F} (h : GeAt M.toFieldModel 1 P q) :
    Yields (geToStorage B q) (StoredAt P) := by
  obtain ⟨x, y, -, hx, hy, -, x', y', hns, rfl, rfl, rfl⟩ := h
  refine (M.normalize (by norm_num) hx).bind fun sx hx => ?_
  refine (M.normalize (by norm_num) hy).bind fun sy hy => ?_
  refine .pure ⟨x', y', hns, rfl, ?_, ?_⟩
  · rw [M.toStorage_val hx, mul_one, mul_one]
  · rw [M.toStorage_val hy, mul_one, mul_one, mul_one]

variable (M) in
theorem geFromStorage_at {s : GeStorage} (h : StoredAt P s) :
    GeAt M.toFieldModel 1 P (geFromStorage B s) := by
  obtain ⟨x, y, hns, rfl, hx, hy⟩ := h
  have hjac := (nonsingular_iff.mp hns).jac
  exact ⟨x, y, rfl, M.rep_mono (by norm_num) (M.rep_of_norm (M.fromStorage_norm hx)),
    M.rep_mono (by norm_num) (M.rep_of_norm (M.fromStorage_norm hy)), hjac⟩

theorem toStorageLoop_at {prea : ℕ → Ge F} {Q : ℕ → Point} (k i : ℕ)
    (h : ∀ j < i + k, GeAt M.toFieldModel 1 (Q j) (prea j)) (pre : ℕ → GeStorage)
    (hpre : ∀ j < i, StoredAt (Q j) (pre j)) :
    Yields (toStorageLoop B prea k i pre) fun pre => ∀ j < i + k, StoredAt (Q j) (pre j) := by
  induction k generalizing i pre with
  | zero => exact .some hpre
  | succ k ih =>
    refine (geToStorage_at (h i (by omega))).bind fun s hs => ?_
    rw [show i + (k + 1) = i + 1 + k by omega] at h ⊢
    refine ih (i + 1) h _ fun j hj => ?_
    by_cases hji : j = i
    · subst hji
      rwa [Function.update_self]
    · rw [Function.update_of_ne hji]
      exact hpre j (by omega)

variable (M) in
theorem geConstG_at : GeAt M.toFieldModel 1 generator (geConstG B) := by
  have hx := M.const 0x79BE667E 0xF9DCBBAC 0x55A06295 0xCE870B07 0x029BFCDB 0x2DCE28D9 0x59F2815B
    0x16F81798 (by decide)
  have hy := M.const 0x483ADA77 0x26A3C465 0x5DA4FBFC 0x0E1108A8 0xFD17B448 0xA6855419 0x9C47D08F
    0xFB10D4B8 (by decide)
  rw [show constVal _ _ _ _ _ _ _ _ = generatorX by decide] at hx
  rw [show constVal _ _ _ _ _ _ _ _ = generatorY by decide] at hy
  exact ⟨_, _, rfl, M.rep_mono (by norm_num) (M.rep_of_norm hx),
    M.rep_mono (by norm_num) (M.rep_of_norm hy), onCurve_generator.jac⟩

/-- The odd multiples of any point of the curve, from any memory. -/
theorem ecmultOddMultiplesTableStorageVar_at (hM : M.MulInt) {N : ℕ} (hN : 0 < N) (hNn : 2 * N < n)
    (mem : TableMemory F) (prea : ℕ → Ge F) (pre : ℕ → GeStorage) {a : Gej F}
    (ha : EntryOf M.toFieldModel 1 P a) :
    Yields (ecmultOddMultiplesTableStorageVar B N mem prea pre a) fun pre =>
      ∀ j < N, StoredAt ((2 * j + 1) • P) (pre j) := by
  obtain ⟨X, Y, Z, hinf, hx, hy, hz, hjac⟩ := ha
  rw [mul_one] at hjac
  refine (ecmultOddMultiplesTable_odd hjac.ne_zero hM M.zero_iff.mp hN hNn mem hinf
    (M.raw_of_rep hx) (M.raw_of_rep hy) hz hjac).bind ?_
  rintro ⟨prej, zr⟩ ⟨w, Z, ht, hlast⟩
  refine (geSetTableGejVar_at hN ht hlast prea).bind fun prea hprea => ?_
  have hloop := toStorageLoop_at N 0 (by rwa [Nat.zero_add]) pre fun j hj => absurd hj (by omega)
  rwa [Nat.zero_add] at hloop

end

end Secp256k1
