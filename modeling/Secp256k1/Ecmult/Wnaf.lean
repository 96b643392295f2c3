import Secp256k1.Ecmult.Impl

/-!
# The digits of a scalar

Every digit that `secp256k1_ecmult_wnaf` writes is odd and below `2 ^ (w - 1)` in absolute value, so
that the entry it selects is one that the table has. Together the digits spell the scalar, and they
are the only digits that do with so many zeros between them.
-/

namespace Secp256k1

/-- Zero, or odd with less than `w` binary digits. -/
def IsDigit (w : ℕ) (d : ℤ) : Prop := d ≠ 0 → d % 2 = 1 ∧ -(2 ^ (w - 1)) < d ∧ d < 2 ^ (w - 1)

theorem IsDigit.neg {w : ℕ} {d : ℤ} (h : IsDigit w d) : IsDigit w (-d) := by
  intro h0
  have := h (neg_ne_zero.mp h0)
  omega

/-- The word that a turn of the loop reads is odd, and the next carry makes it a digit. -/
theorem word_isDigit {w now b carry : ℕ} (hw : 2 ≤ w) (hnow : 0 < now) (hle : now ≤ w)
    (hb : b < 2 ^ now) (hc : carry ≤ 1) (hne : b % 2 ≠ carry) :
    (b + carry) / 2 ^ (w - 1) % 2 ≤ 1 ∧
      IsDigit w (((b + carry : ℕ) : ℤ) - ((b + carry) / 2 ^ (w - 1) % 2 : ℕ) * 2 ^ w) := by
  obtain ⟨k, rfl⟩ : ∃ k, now = k + 1 := ⟨now - 1, by omega⟩
  obtain ⟨j, rfl⟩ : ∃ j, w = j + 2 := ⟨w - 2, by omega⟩
  have hpow : 2 ^ (k + 1) ≤ 2 ^ (j + 2) := Nat.pow_le_pow_right (by norm_num) hle
  have hmod := Nat.mod_two_eq_zero_or_one b
  have hk : 2 ^ (k + 1) = 2 * 2 ^ k := by ring
  have hj : 2 ^ (j + 2) = 4 * 2 ^ j := by ring
  have hj' : ((2 : ℤ)) ^ (j + 2) = 4 * ((2 ^ j : ℕ) : ℤ) := by push_cast; ring
  have hj1 : ((2 : ℤ)) ^ (j + 2 - 1) = 2 * ((2 ^ j : ℕ) : ℤ) := by
    rw [show j + 2 - 1 = j + 1 by omega]
    push_cast
    ring
  have hjn : 2 ^ (j + 2 - 1) = 2 * 2 ^ j := by
    rw [show j + 2 - 1 = j + 1 by omega]
    ring
  refine ⟨by omega, fun _ => ?_⟩
  rw [hj', hj1, hjn]
  rw [hk] at hb hpow
  rw [hj] at hpow
  generalize 2 ^ j = Q at *
  -- the carry says whether the word reaches the upper half
  rcases Nat.lt_or_ge (b + carry) (2 * Q) with hlt | hge
  · rw [Nat.div_eq_of_lt hlt]
    omega
  · rw [show (b + carry) / (2 * Q) = 1 from Nat.div_eq_of_lt_le (by omega) (by omega)]
    omega

section

variable {S : Type} {O : ScalarOps S} {val : S → ℕ} (hO : O.Sound val)
include hO

theorem wnafLoop_digits {w : ℕ} (hw : 2 ≤ w) (hw31 : w ≤ 31) (s : S) {sign : ℤ}
    (hsign : sign = 1 ∨ sign = -1) (fuel bit carry : ℕ) (wnaf : ℕ → ℤ) (last : ℤ) (hc : carry ≤ 1)
    (h : ∀ i, IsDigit w (wnaf i)) (i : ℕ) :
    IsDigit w ((wnafLoop O 256 w s sign fuel bit carry wnaf last).1 i) := by
  induction fuel generalizing bit carry wnaf last with
  | zero => exact h i
  | succ fuel ih =>
    rw [wnafLoop]
    split
    case isFalse => exact h i
    case isTrue hbit =>
      split
      case isTrue => exact ih _ _ _ _ hc h
      case isFalse hne =>
        have hbits := hO.getBitsVar s bit (min w (256 - bit)) (by omega) (by omega) (by omega)
        rw [hO.getBits s bit hbit] at hne
        have hlow : val s / 2 ^ bit % 2 ^ min w (256 - bit) % 2 = val s / 2 ^ bit % 2 :=
          Nat.mod_mod_of_dvd _ (dvd_pow_self 2 (by omega))
        obtain ⟨hcarry, hdigit⟩ := word_isDigit hw (show 0 < min w (256 - bit) by omega) (by omega)
          (Nat.mod_lt (val s / 2 ^ bit) (by positivity)) hc (by rwa [hlow])
        simp only [hbits]
        refine ih _ _ _ _ hcarry fun j => ?_
        by_cases hj : j = bit
        · rw [hj, Function.update_self]
          rcases hsign with rfl | rfl
          · rwa [one_mul]
          · rw [neg_one_mul]
            exact hdigit.neg
        · rw [Function.update_of_ne hj]
          exact h j

theorem ecmultWnaf_digits {w : ℕ} (hw : 2 ≤ w) (hw31 : w ≤ 31) (a : S) (i : ℕ) :
    IsDigit w ((ecmultWnaf O 256 a w).1 i) := by
  refine wnafLoop_digits hO hw hw31 _ ?_ 256 0 0 _ _ (Nat.zero_le 1) (fun _ h => absurd rfl h) i
  split
  · exact .inr rfl
  · exact .inl rfl

end

/-- The entry that a digit selects. -/
theorem IsDigit.index_lt {w : ℕ} {d : ℤ} (hw : 2 ≤ w) (h : IsDigit w d) (h0 : d ≠ 0) :
    (0 < d → ((d - 1) / 2).toNat < ecmultTableSize w) ∧
      (d < 0 → ((-d - 1) / 2).toNat < ecmultTableSize w) := by
  obtain ⟨-, hlo, hhi⟩ := h h0
  obtain ⟨j, rfl⟩ : ∃ j, w = j + 2 := ⟨w - 2, by omega⟩
  have hj1 : ((2 : ℤ)) ^ (j + 2 - 1) = 2 * ((2 ^ j : ℕ) : ℤ) := by
    rw [show j + 2 - 1 = j + 1 by omega]
    push_cast
    ring
  rw [hj1] at hlo hhi
  rw [ecmultTableSize, Nat.add_sub_cancel]
  omega

/-! ## The number that the digits spell -/

/-- The number with the digits `d` in base two. -/
def digitSum (d : ℕ → ℤ) (k : ℕ) : ℤ := ∑ j ∈ Finset.range k, d j * 2 ^ j

theorem digitSum_succ (d : ℕ → ℤ) (k : ℕ) : digitSum d (k + 1) = digitSum d k + d k * 2 ^ k :=
  Finset.sum_range_succ _ _

/-- Digits that vanish from `k` on add nothing. -/
theorem digitSum_of_le {d : ℕ → ℤ} {k m : ℕ} (hkm : k ≤ m) (h : ∀ j, k ≤ j → d j = 0) :
    digitSum d m = digitSum d k := by
  induction m, hkm using Nat.le_induction with
  | base => rfl
  | succ m hm ih => rw [digitSum_succ, ih, h m hm, zero_mul, add_zero]

theorem digitSum_update {d : ℕ → ℤ} {bit k : ℕ} (hk : bit < k) (h0 : d bit = 0) (v : ℤ) :
    digitSum (Function.update d bit v) k = digitSum d k + v * 2 ^ bit := by
  have hterm : ∀ j, Function.update d bit v j * 2 ^ j =
      d j * 2 ^ j + if j = bit then v * 2 ^ bit else 0 := by
    intro j
    by_cases hj : j = bit
    · rw [hj, Function.update_self, if_pos rfl, h0, zero_mul, zero_add]
    · rw [Function.update_of_ne hj, if_neg hj, add_zero]
  unfold digitSum
  rw [Finset.sum_congr rfl fun j _ => hterm j, Finset.sum_add_distrib, Finset.sum_ite_eq',
    if_pos (Finset.mem_range.mpr hk)]

/-- The state of the loop: the digits found so far spell the low part of the number but for the
carry, they are `w` apart, and nothing is set from `bit` on. -/
structure WnafState (w s : ℕ) (sign : ℤ) (bit carry : ℕ) (d : ℕ → ℤ) (last : ℤ) : Prop where
  carry_le : carry ≤ 1
  done : bit = 256 → carry = 0
  value : digitSum d 256 = sign * ((s % 2 ^ bit : ℕ) - (carry * 2 ^ bit : ℕ))
  above : ∀ j, bit ≤ j → d j = 0
  room : ∀ i, d i ≠ 0 → i + w ≤ bit ∨ bit = 256
  sparse : ∀ i j, i < j → d i ≠ 0 → d j ≠ 0 → i + w ≤ j
  last_lt : -1 ≤ last ∧ last < bit
  set : 0 ≤ last → d last.toNat ≠ 0
  unset : ∀ j : ℕ, last < j → d j = 0

namespace WnafState

variable {w s bit carry : ℕ} {sign last : ℤ} {d : ℕ → ℤ}

theorem init (w s : ℕ) (sign : ℤ) : WnafState w s sign 0 0 (fun _ => 0) (-1) where
  carry_le := Nat.zero_le 1
  done h := absurd h (by norm_num)
  value := by
    simp only [digitSum, zero_mul, Finset.sum_const_zero, pow_zero, Nat.mod_one, Nat.cast_zero,
      sub_zero, mul_zero]
  above _ _ := rfl
  room _ h := absurd rfl h
  sparse _ _ _ h := absurd rfl h
  last_lt := ⟨le_rfl, by norm_num⟩
  set h := absurd h (by norm_num)
  unset _ _ := rfl

/-- A bit equal to the carry is passed over. -/
theorem skip (h : WnafState w s sign bit carry d last) (hs : s < 2 ^ 255) (hbit : bit < 256)
    (heq : s / 2 ^ bit % 2 = carry) : WnafState w s sign (bit + 1) carry d last where
  carry_le := h.carry_le
  done hb := by
    obtain rfl : bit = 255 := by omega
    rw [← heq, Nat.div_eq_of_lt hs]
  value := by
    rw [h.value, Nat.mod_pow_succ, heq]
    push_cast
    ring
  above j hj := h.above j (by omega)
  room i hi := by
    have := h.room i hi
    omega
  sparse := h.sparse
  last_lt := by
    have := h.last_lt
    omega
  set := h.set
  unset := h.unset

/-- A digit of `now` bits, and the carry it leaves. -/
theorem put (h : WnafState w s sign bit carry d last) (hs : s < 2 ^ 255) (hw : 2 ≤ w)
    (hbit : bit < 256) (hsign : sign = 1 ∨ sign = -1) (hne : s / 2 ^ bit % 2 ≠ carry)
    {now word carry' : ℕ} (hnow : now = min w (256 - bit))
    (hword : word = s / 2 ^ bit % 2 ^ now + carry) (hcarry : carry' = word / 2 ^ (w - 1) % 2) :
    WnafState w s sign (bit + now) carry'
      (Function.update d bit (sign * ((word : ℤ) - carry' * 2 ^ w))) bit := by
  have hpos : 0 < now := by omega
  have hle : now ≤ w := by omega
  have hlow : s / 2 ^ bit % 2 ^ now % 2 = s / 2 ^ bit % 2 :=
    Nat.mod_mod_of_dvd _ (dvd_pow_self 2 (by omega))
  have hodd : word % 2 = 1 := by
    have := h.carry_le
    omega
  have hcarry1 : carry' ≤ 1 := by omega
  -- no carry leaves the last word, whose top bit is clear
  have hlast : bit + now = 256 → carry' = 0 := by
    intro hb
    have hdiv : s / 2 ^ bit < 2 ^ (now - 1) := by
      rw [Nat.div_lt_iff_lt_mul (by positivity), ← pow_add]
      exact hs.trans_eq (congrArg _ (by omega))
    have hmod : s / 2 ^ bit % 2 ^ now ≤ s / 2 ^ bit := Nat.mod_le _ _
    have hpow : 2 ^ (now - 1) ≤ 2 ^ (w - 1) := Nat.pow_le_pow_right (by norm_num) (by omega)
    have heven : 2 ^ (w - 1) % 2 = 0 := Nat.mod_eq_zero_of_dvd (dvd_pow_self 2 (by omega))
    have hlt : word < 2 ^ (w - 1) := by
      have := h.carry_le
      omega
    rw [hcarry, Nat.div_eq_of_lt hlt]
  have hpowc : (carry' * 2 ^ (bit + now) : ℕ) = carry' * 2 ^ (bit + w) := by
    rcases Nat.eq_or_lt_of_le hle with rfl | hlt
    · rfl
    · rw [hlast (by omega), Nat.zero_mul, Nat.zero_mul]
  have hdigit : (sign * ((word : ℤ) - carry' * 2 ^ w)) ≠ 0 := by
    have hsign0 : sign ≠ 0 := by rcases hsign with rfl | rfl <;> norm_num
    refine mul_ne_zero hsign0 fun h0 => ?_
    have heven : (2 : ℤ) ^ w % 2 = 0 := Int.emod_eq_zero_of_dvd (dvd_pow_self 2 (by omega))
    have hmul : (carry' : ℤ) * 2 ^ w % 2 = 0 := by rw [Int.mul_emod, heven, mul_zero, Int.zero_emod]
    omega
  refine ⟨hcarry1, hlast, ?_, fun j hj => ?_, fun i hi => ?_, fun i j hij hi hj => ?_, ?_,
    fun _ => ?_, fun j hj => ?_⟩
  · rw [digitSum_update hbit (h.above bit le_rfl), h.value, hpowc, pow_add 2 bit now,
      Nat.mod_mul, hword]
    push_cast
    ring
  · rw [Function.update_of_ne (by omega)]
    exact h.above j (by omega)
  · by_cases hib : i = bit
    · omega
    · rw [Function.update_of_ne hib] at hi
      have := h.room i hi
      omega
  · by_cases hjb : j = bit
    · subst hjb
      rw [Function.update_of_ne (by omega)] at hi
      have := h.room i hi
      omega
    · rw [Function.update_of_ne hjb] at hj
      have hj' : j < bit := by
        by_contra hc
        exact hj (h.above j (by omega))
      rw [Function.update_of_ne (by omega)] at hi
      exact h.sparse i j hij hi hj
  · omega
  · rw [Int.toNat_natCast, Function.update_self]
    exact hdigit
  · rw [Function.update_of_ne (by omega)]
    exact h.above j (by omega)

end WnafState

section

variable {S : Type} {O : ScalarOps S} {val : S → ℕ} (hO : O.Sound val)
include hO

theorem wnafLoop_state {w : ℕ} (hw : 2 ≤ w) (hw31 : w ≤ 31) {s : S} (hs : val s < 2 ^ 255)
    {sign : ℤ} (hsign : sign = 1 ∨ sign = -1) (fuel bit carry : ℕ) (d : ℕ → ℤ) (last : ℤ)
    (hbit : bit ≤ 256) (hfuel : 256 ≤ bit + fuel)
    (h : WnafState w (val s) sign bit carry d last) :
    WnafState w (val s) sign 256 0 (wnafLoop O 256 w s sign fuel bit carry d last).1
      (wnafLoop O 256 w s sign fuel bit carry d last).2 := by
  induction fuel generalizing bit carry d last with
  | zero =>
    obtain rfl : bit = 256 := by omega
    obtain rfl := h.done rfl
    exact h
  | succ fuel ih =>
    rw [wnafLoop]
    split
    case isFalse hge =>
      obtain rfl : bit = 256 := by omega
      obtain rfl := h.done rfl
      exact h
    case isTrue hlt =>
      rw [hO.getBits s bit hlt]
      split
      case isTrue heq => exact ih _ _ _ _ (by omega) (by omega) (h.skip hs hlt heq)
      case isFalse hne =>
        have hbits := hO.getBitsVar s bit (min w (256 - bit)) (by omega) (by omega) (by omega)
        simp only [hbits]
        exact ih _ _ _ _ (by omega) (by omega) (h.put hs hw hlt hsign hne rfl rfl rfl)

/-- The digits of a scalar: they spell it modulo the group order, from its residue of least absolute
value but for one bit; each is odd and below `2 ^ (w - 1)`, and of `w` in a row at most one is not
zero. The number returned is that of the last digit that is not zero, plus one. -/
theorem ecmultWnaf_spec {w : ℕ} (hw : 2 ≤ w) (hw31 : w ≤ 31) {a : S} (ha : val a < n) :
    digitSum (ecmultWnaf O 256 a w).1 256 = (if val a < 2 ^ 255 then (val a : ℤ) else val a - n) ∧
    (∀ i, IsDigit w ((ecmultWnaf O 256 a w).1 i)) ∧
    (∀ i j, i < j → (ecmultWnaf O 256 a w).1 i ≠ 0 → (ecmultWnaf O 256 a w).1 j ≠ 0 → i + w ≤ j) ∧
    (ecmultWnaf O 256 a w).2 ≤ 256 ∧
    (∀ j, (ecmultWnaf O 256 a w).2 ≤ j → (ecmultWnaf O 256 a w).1 j = 0) ∧
    (0 < (ecmultWnaf O 256 a w).2 →
      (ecmultWnaf O 256 a w).1 ((ecmultWnaf O 256 a w).2 - 1) ≠ 0) := by
  have hdigits := ecmultWnaf_digits hO hw hw31 a
  have hlt : val a < 2 ^ 256 := ha.trans n_lt
  -- the scalar that the loop reads, and its sign
  obtain ⟨s, sign, hs, hsign, hval, heq⟩ : ∃ s sign, val s < 2 ^ 255 ∧ (sign = 1 ∨ sign = -1) ∧
      sign * (val s : ℤ) = (if val a < 2 ^ 255 then (val a : ℤ) else val a - n) ∧
      ecmultWnaf O 256 a w = ((wnafLoop O 256 w s sign 256 0 0 (fun _ => 0) (-1)).1,
        ((wnafLoop O 256 w s sign 256 0 0 (fun _ => 0) (-1)).2 + 1).toNat) := by
    have hbit := hO.getBits a 255 (by norm_num)
    by_cases htop : val a < 2 ^ 255
    · rw [Nat.div_eq_of_lt htop] at hbit
      refine ⟨a, 1, htop, .inl rfl, by rw [if_pos htop, one_mul], ?_⟩
      simp only [ecmultWnaf, hbit, Nat.zero_mod, ne_eq, not_true_eq_false, if_false]
    · have hneg := hO.negate a ha
      have hpos : 0 < val a := by omega
      rw [Nat.mod_eq_of_lt (by omega)] at hneg
      have hn := n_lt
      have hdiv : val a / 2 ^ 255 % 2 = 1 := by omega
      rw [hdiv] at hbit
      refine ⟨O.negate a, -1, by omega, .inr rfl, ?_, ?_⟩
      · rw [if_neg htop, hneg, Nat.cast_sub ha.le]
        ring
      · simp only [ecmultWnaf, hbit, ne_eq, one_ne_zero, not_false_eq_true, if_true]
  have h := wnafLoop_state hO hw hw31 hs hsign 256 0 0 _ _ (by norm_num) (by norm_num)
    (WnafState.init w (val s) sign)
  rw [heq] at hdigits ⊢
  generalize wnafLoop O 256 w s sign 256 0 0 (fun _ => 0) (-1) = t at h hdigits ⊢
  obtain ⟨d, last⟩ := t
  obtain ⟨hge, hlast⟩ := h.last_lt
  refine ⟨?_, hdigits, h.sparse, ?_, fun j hj => ?_, fun hpos => ?_⟩
  · rw [h.value, Nat.zero_mul, Nat.cast_zero, sub_zero, ← hval,
      Nat.mod_eq_of_lt (hs.trans (by norm_num))]
  · dsimp only at hlast ⊢
    omega
  · refine h.unset j ?_
    dsimp only at hj ⊢
    omega
  · have hset := h.set (by dsimp only at hpos ⊢; omega)
    rwa [show ((last + 1).toNat - 1) = last.toNat by omega]

end

/-! ## The digits are the only ones -/

/-- The digits of `v` in the non-adjacent form of width `w`: `bits` of them, the last not zero. -/
structure WnafOf (w : ℕ) (v : ℤ) (d : ℕ → ℤ) (bits : ℕ) : Prop where
  value : digitSum d bits = v
  digit : ∀ i, IsDigit w (d i)
  sparse : ∀ i j, i < j → d i ≠ 0 → d j ≠ 0 → i + w ≤ j
  above : ∀ j, bits ≤ j → d j = 0
  top : 0 < bits → d (bits - 1) ≠ 0

theorem digitSum_shift (d : ℕ → ℤ) (k : ℕ) :
    digitSum d (k + 1) = 2 * digitSum (fun j => d (j + 1)) k + d 0 := by
  unfold digitSum
  rw [Finset.sum_range_succ', Finset.mul_sum, pow_zero, mul_one]
  congr 1
  refine Finset.sum_congr rfl fun j _ => ?_
  ring

/-- A first digit that is not zero is the number modulo `2 ^ w`. -/
theorem digitSum_head {w : ℕ} {d : ℕ → ℤ} (hsparse : ∀ i j, i < j → d i ≠ 0 → d j ≠ 0 → i + w ≤ j)
    (h0 : d 0 ≠ 0) (k : ℕ) : (2 : ℤ) ^ w ∣ digitSum d (k + 1) - d 0 := by
  have hterm : ∀ j, (2 : ℤ) ^ w ∣ d (j + 1) * 2 ^ (j + 1) := by
    intro j
    by_cases hj : d (j + 1) = 0
    · rw [hj, zero_mul]
      exact dvd_zero _
    · have hle := hsparse 0 (j + 1) (Nat.succ_pos j) h0 hj
      exact (pow_dvd_pow 2 (by omega)).mul_left _
  unfold digitSum
  rw [Finset.sum_range_succ', pow_zero, mul_one, add_sub_cancel_right]
  exact Finset.dvd_sum fun j _ => hterm j

theorem IsDigit.odd_iff {w : ℕ} {d : ℤ} (h : IsDigit w d) : d % 2 = 1 ↔ d ≠ 0 := by
  constructor
  · rintro h1 rfl
    exact absurd h1 (by norm_num)
  · exact fun h0 => (h h0).1

theorem digits_unique {w : ℕ} (hw : 2 ≤ w) (k : ℕ) {d e : ℕ → ℤ} (hd : ∀ i, IsDigit w (d i))
    (he : ∀ i, IsDigit w (e i)) (hds : ∀ i j, i < j → d i ≠ 0 → d j ≠ 0 → i + w ≤ j)
    (hes : ∀ i j, i < j → e i ≠ 0 → e j ≠ 0 → i + w ≤ j) (h : digitSum d k = digitSum e k) :
    ∀ j < k, d j = e j := by
  induction k generalizing d e with
  | zero => exact fun j hj => absurd hj (Nat.not_lt_zero j)
  | succ k ih =>
    have hparity : d 0 ≠ 0 ↔ e 0 ≠ 0 := by
      rw [← (hd 0).odd_iff, ← (he 0).odd_iff]
      have hshift := digitSum_shift d k
      have hshift' := digitSum_shift e k
      omega
    have hfirst : d 0 = e 0 := by
      by_cases h0 : d 0 = 0
      · have h0' : e 0 = 0 := by
          by_contra hne
          exact hparity.mpr hne h0
        rw [h0, h0']
      · have h0' : e 0 ≠ 0 := hparity.mp h0
        obtain ⟨-, hlo, hhi⟩ := hd 0 h0
        obtain ⟨-, hlo', hhi'⟩ := he 0 h0'
        have hdvd : (2 : ℤ) ^ w ∣ d 0 - e 0 := by
          have := (digitSum_head hes h0' k).sub (digitSum_head hds h0 k)
          rwa [h, sub_sub_sub_cancel_left] at this
        have hpow : (2 : ℤ) ^ w = 2 * 2 ^ (w - 1) := by
          rw [← pow_succ', Nat.sub_add_cancel (by omega)]
        have hlt : |d 0 - e 0| < 2 ^ w := by
          rw [abs_lt, hpow]
          constructor <;> linarith
        linarith [Int.eq_zero_of_abs_lt_dvd hdvd hlt]
    have htail : digitSum (fun j => d (j + 1)) k = digitSum (fun j => e (j + 1)) k := by
      have hshift := digitSum_shift d k
      have hshift' := digitSum_shift e k
      omega
    have hrest := ih (fun i => hd (i + 1)) (fun i => he (i + 1))
      (fun i j hij hi hj => by have := hds (i + 1) (j + 1) (by omega) hi hj; omega)
      (fun i j hij hi hj => by have := hes (i + 1) (j + 1) (by omega) hi hj; omega) htail
    intro j hj
    cases j with
    | zero => exact hfirst
    | succ j => exact hrest j (by omega)

theorem WnafOf.unique {w : ℕ} (hw : 2 ≤ w) {v : ℤ} {d e : ℕ → ℤ} {k m : ℕ} (hd : WnafOf w v d k)
    (he : WnafOf w v e m) : d = e ∧ k = m := by
  have hsum : digitSum d (max k m) = digitSum e (max k m) := by
    rw [digitSum_of_le (le_max_left k m) hd.above, digitSum_of_le (le_max_right k m) he.above,
      hd.value, he.value]
  have heq := digits_unique hw (max k m) hd.digit he.digit hd.sparse he.sparse hsum
  have hfun : d = e := by
    funext j
    by_cases hj : j < max k m
    · exact heq j hj
    · rw [hd.above j (by omega), he.above j (by omega)]
  subst hfun
  refine ⟨rfl, ?_⟩
  rcases Nat.lt_trichotomy k m with hlt | rfl | hlt
  · exact absurd (hd.above _ (by omega)) (he.top (by omega))
  · rfl
  · exact absurd (he.above _ (by omega)) (hd.top (by omega))

/-- What is written are the digits in the non-adjacent form of width `w` of the scalar, less the
order where its top bit is set. They fit the array, no other digits are such a form, and so either
backend writes the same. -/
theorem ScalarBackend.ecmultWnaf_unique (c : ScalarBackend) {w : ℕ} (hw : 2 ≤ w) (hw31 : w ≤ 31)
    {a : c.Scalar} (ha : c.val a < n) :
    WnafOf w (if c.val a < 2 ^ 255 then (c.val a : ℤ) else c.val a - n) (ecmultWnaf c.ops 256 a w).1
      (ecmultWnaf c.ops 256 a w).2 ∧
    (ecmultWnaf c.ops 256 a w).2 ≤ 256 ∧
    (∀ d k, WnafOf w (if c.val a < 2 ^ 255 then (c.val a : ℤ) else c.val a - n) d k →
      (d, k) = ecmultWnaf c.ops 256 a w) ∧
    ∀ (c' : ScalarBackend) (a' : c'.Scalar), c'.val a' = c.val a →
      ecmultWnaf c'.ops 256 a' w = ecmultWnaf c.ops 256 a w := by
  have hform : ∀ (c : ScalarBackend) (a : c.Scalar), c.val a < n →
      WnafOf w (if c.val a < 2 ^ 255 then (c.val a : ℤ) else c.val a - n)
        (ecmultWnaf c.ops 256 a w).1 (ecmultWnaf c.ops 256 a w).2 ∧
      (ecmultWnaf c.ops 256 a w).2 ≤ 256 := by
    intro c a ha
    obtain ⟨hsum, hdigit, hsparse, hbits, habove, htop⟩ := ecmultWnaf_spec c.sound hw hw31 ha
    exact ⟨⟨(digitSum_of_le hbits habove).symm.trans hsum, hdigit, hsparse, habove, htop⟩, hbits⟩
  obtain ⟨hof, hbits⟩ := hform c a ha
  refine ⟨hof, hbits, fun d k h => ?_, fun c' a' h => ?_⟩
  · obtain ⟨rfl, rfl⟩ := h.unique hw hof
    rfl
  · have hof' := (hform c' a' (h ▸ ha)).1
    rw [h] at hof'
    obtain ⟨hd, hk⟩ := hof'.unique hw hof
    exact Prod.ext hd hk

/-- The scalar 7 for a window of 5 bits, in four limbs and in eight. -/
theorem ScalarBackend.ecmultWnaf_unique_demo :
    ecmultWnaf Scalar8x32.ops 256 (Scalar8x32.scalarSetInt 7) 5 =
      ecmultWnaf Scalar4x64.ops 256 (Scalar4x64.scalarSetInt 7) 5 := by
  have h4 : ScalarBackend.limbs4x64.val (Scalar4x64.scalarSetInt 7) = 7 := by decide
  have h8 : ScalarBackend.limbs8x32.val (Scalar8x32.scalarSetInt 7) = 7 := by decide
  have hlt : ScalarBackend.limbs4x64.val (Scalar4x64.scalarSetInt 7) < n := by
    rw [h4]
    unfold n
    norm_num
  exact (ScalarBackend.ecmultWnaf_unique .limbs4x64 (w := 5) (by norm_num) (by norm_num) hlt).2.2.2
    .limbs8x32 (Scalar8x32.scalarSetInt 7) (h8.trans h4.symm)

end Secp256k1
