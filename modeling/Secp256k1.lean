import Secp256k1.Lib.Word
import Secp256k1.Lib.Bytes
import Secp256k1.Lib.X64
import Secp256k1.Params
import Secp256k1.Field.Repr5x52
import Secp256k1.Field.Impl5x52
import Secp256k1.Field.Normalize
import Secp256k1.Field.Columns
import Secp256k1.Field.Int128
import Secp256k1.Field.X64Asm
import Secp256k1.Field.X64Common
import Secp256k1.Field.X64Mul
import Secp256k1.Field.X64Sqr
import Secp256k1.Field.Kernel
import Secp256k1.Field.Impl4x64
import Secp256k1.Field.Ops
import Secp256k1.Field.Impl
import Secp256k1.Field.Spec5x52
import Secp256k1.Field.Spec4x64
import Secp256k1.Field.Simulation
import Secp256k1.Lib.Limbs
import Secp256k1.Scalar.Accumulator
import Secp256k1.Scalar.Chains
import Secp256k1.Scalar.Impl4x64
import Secp256k1.Scalar.Impl8x32
import Secp256k1.Scalar.Spec4x64
import Secp256k1.Scalar.Spec8x32
import Secp256k1.Scalar.Agreement
import Secp256k1.Scalar.Ops
import Secp256k1.Ecdsa.Der
import Secp256k1.Ecdsa.DerSpec
import Secp256k1.Ecdsa.DerLax
import Secp256k1.Ecdsa.DerLength
import Secp256k1.Ecdsa.DerSerialize
import Secp256k1.Lib.Primality
import Secp256k1.Primes
import Secp256k1.Lib.Yields
import Secp256k1.Field.Model
import Secp256k1.Field.Powers
import Secp256k1.Group.Impl
import Secp256k1.Field.Values
import Secp256k1.Group.Curve
import Secp256k1.Group.Affine
import Secp256k1.Eckey
import Secp256k1.Num
import Secp256k1.Ecdsa.Verify
import Secp256k1.Lib.ShortCurve
import Secp256k1.Group.Order
import Secp256k1.Field.Backend
import Secp256k1.Group.Points
import Secp256k1.Ecdsa.Recover
import Secp256k1.Group.Quad
import Secp256k1.Pubkey
import Secp256k1.Schnorr
import Secp256k1.Group.Tables
import Secp256k1.Ecmult.Impl
import Secp256k1.Ecmult.Gen
import Secp256k1.Group.Formulas
import Secp256k1.Ecmult.Wnaf
import Secp256k1.Ecmult.Ranges
import Secp256k1.Ecmult.Compiled
import Secp256k1.Ecmult.Checked
import Secp256k1.Group.Law
import Secp256k1.Group.Batch
import Secp256k1.Ecmult.Table
import Secp256k1.Ecmult.Correct
import Secp256k1.Ecmult.GenTable
import Secp256k1.Ecmult.GenCorrect
import Secp256k1.Scalar.Inverse
import Secp256k1.Lib.Sha2
import Secp256k1.Hash.Sha256
import Secp256k1.Hash.Rfc6979
import Secp256k1.Ecdsa.Sign
import Secp256k1.Keys
import Secp256k1.PubkeyFormats
import Secp256k1.PrivkeyDer
import Secp256k1.Ecdsa.Signature
