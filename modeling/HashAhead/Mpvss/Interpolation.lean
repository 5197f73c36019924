import HashAhead.Foundation.Newton
import HashAhead.State.Account
import Mathlib.LinearAlgebra.Lagrange
import HashAhead.Foundation.Lucas
import Mathlib.Tactic.NormNum.Prime

/-! The scalars of the curve, whose group has a prime order, and the interpolation of a secret. The inverses that the
interpolation needs are taken from a table. -/

namespace HashAhead.Mpvss
open Foundation State Polynomial List

/-- The order of the group, `2^252 + 27742317777372353535851937790883648493`. -/
def groupOrder : ℕ := 7237005577332262213973186563042994240857116359379907606001950938285454250989

/-- The order is `CSC25519::prime`. -/
example : groupOrder = 2 ^ 252 + 27742317777372353535851937790883648493 := by norm_num [groupOrder]

/-- Certificates up to the order of the group. -/
def orderCertificates : List Certificate :=
  [⟨292386187, 29, 2, [2, 3, 3, 3, 3, 307, 5879]⟩, ⟨213441916511, 38, 13, [2, 5, 73, 292386187]⟩,
    ⟨1257559732178653, 51, 2, [2, 2, 3, 7, 23, 531581, 1224481]⟩,
    ⟨4434155615661930479, 62, 17, [2, 41, 43, 1257559732178653]⟩,
    ⟨3044861653679985063343, 72, 5, [2, 3, 11, 30703, 82163, 132667, 137849]⟩,
    ⟨172054593956031949258510691, 88, 2, [2, 5, 1361, 2851, 4434155615661930479]⟩,
    ⟨198211423230930754013084525763697, 108, 5, [2, 2, 2, 2, 3, 23, 58964693, 3044861653679985063343]⟩,
    ⟨19757330305831588566944191468367130476339, 134, 2, [2, 269, 213441916511, 172054593956031949258510691]⟩,
    ⟨276602624281642239937218680557139826668747, 138, 2, [2, 7, 19757330305831588566944191468367130476339]⟩,
    ⟨groupOrder, 253, 2,
      [2, 2, 3, 11, 198211423230930754013084525763697, 276602624281642239937218680557139826668747]⟩]

theorem groupOrder_prime : groupOrder.Prime := by
  have certified : Certified [2, 3, 5, 7, 11, 23, 41, 43, 73, 269, 307, 1361, 2851, 5879, 30703, 82163, 132667, 137849,
      531581, 1224481, 58964693] orderCertificates := by
    decide +kernel
  have primes := certified.prime (by norm_num)
  exact primes (orderCertificates.get ⟨9, by decide⟩) (get_mem ..)

instance : Fact groupOrder.Prime := ⟨groupOrder_prime⟩

/-- `CSC25519`, the residues modulo the group order. -/
abbrev Scalar := ZMod groupOrder

def ofWord (w : UInt256) : Scalar := (w.toNat : Scalar)

/-- `CSC25519::Data`, the least residue. -/
def toWord (s : Scalar) : UInt256 := BitVec.ofNat 256 s.val

theorem toNat_toWord (s : Scalar) : (toWord s).toNat = s.val := by
  rw [toWord, BitVec.toNat_ofNat]
  exact Nat.mod_eq_of_lt ((ZMod.val_lt s).trans (by decide))

@[simp] theorem ofWord_toWord (s : Scalar) : ofWord (toWord s) = s := by
  rw [ofWord, toNat_toWord, ZMod.natCast_zmod_val]

/-- `CSC25519::naturalPowTable`, by the number before the base and the number before the exponent. The
table has 51 rows of 26 columns. -/
def naturalPowTable (row column : ℕ) : ℕ := if row < 51 ∧ column < 26 then (row + 1) ^ (column + 1) else 0

def limbs (v0 v1 v2 v3 : ℕ) : ℕ := v0 + v1 * 2 ^ 64 + v2 * 2 ^ 128 + v3 * 2 ^ 192

/-- `SCInverse`, from -1/50 to 1/50. -/
def scInverse : List ℕ :=
  [limbs 0x1a17ca2895da543a 0xe5096a6aa2744012 0xae147ae147ae147a 0x2e147ae147ae147,
    limbs 0xd6c1048e38e29734 0x703b6f3c1d4691b 0xfac687d6343eb1a2 0xd6343eb1a1f58d0,
    limbs 0x8e8e2c645252d35c 0x656be09b9d9ede3a 0x5555555555555555 0xc55555555555555,
    limbs 0xed7c29d21ba8e31c 0x624022dde9bf9fad 0xe4c415c9882b9310 0x882b9310572620a,
    limbs 0x683b4fb698af7860 0x8017863313c72aac 0xbd37a6f4de9bd37a 0xcde9bd37a6f4de9,
    limbs 0xa34117ad84d07dfd 0x26865663f298f3a7 0xc16c16c16c16c16c 0xc16c16c16c16c16,
    limbs 0x5374c8120dbfc4d1 0x5d90b4396c6e5ad6 0x45d1745d1745d174 0x5d1745d1745d17,
    limbs 0x61bd53ee3c7fb44e 0xcf9dcac28a50b45 0x82fa0be82fa0be83 0xe82fa0be82fa0be,
    limbs 0x952a433f04647874 0xfa450432a0281211 0xcf3cf3cf3cf3cf3c 0x4f3cf3cf3cf3cf3,
    limbs 0x9a59a82eec1dfaa0 0xf60eb453588e963f 0x1f3831f3831f3831 0x1f3831f3831f383,
    limbs 0xcca6ee3fe9cbd33f 0xa8bb41f49c8d1e81 0x9999999999999999 0xb99999999999999,
    limbs 0x58034cdd58e3eaf6 0xe2ecf1c57fb64a19 0x2df2df2df2df2df2 0x2df2df2df2df2df,
    limbs 0x9ce4a4bb271a74e5 0x1c4d969773cae1f6 0x79435e50d79435e5 0xb5e50d79435e50d,
    limbs 0x46be53ec5e4655b0 0x2785790fa89a5fef 0xacf914c1bacf914c 0x914c1bacf914c1b,
    limbs 0xf60cc4d24ec72881 0x2af02d854681495b 0x71c71c71c71c71c7 0xb1c71c71c71c71c,
    limbs 0x1b0a8c283d0c0fb3 0x9f3f015beec4a6fc 0xf8af8af8af8af8af 0xf8af8af8af8af8a,
    limbs 0x72263ac7ddb7bf61 0x1844410f6603d440 0xf0f0f0f0f0f0f0f 0x70f0f0f0f0f0f0f,
    limbs 0x6f4660181255066c 0x7cc0f04c909323c8 0x7c1f07c1f07c1f0 0x7c1f07c1f07c1f,
    limbs 0x7dc2df7c1e86691d 0x342d70ac976b081 0x0 0x280000000000000,
    limbs 0x72e45a0b4d3a8476 0xee73e2ad70a7324c 0xbdef7bdef7bdef7b 0xbdef7bdef7bdef7,
    limbs 0x48d871f718bdd305 0x2f5a04a69a699f10 0x2222222222222222 0xa22222222222222,
    limbs 0xacf858ead3f4130 0x20c4c698645b07a4 0x9611a7b9611a7b96 0xb9611a7b9611a7b,
    limbs 0x5fbf64de8696b4ae 0x7767864bf03c1b1a 0xb6db6db6db6db6db 0x76db6db6db6db6d,
    limbs 0x62af6f06d5bafe0e 0xd600eb729c074e96 0x97b425ed097b425e 0x425ed097b425ed0,
    limbs 0x404f34c0555e071 0x54636aa83f916f26 0xc4ec4ec4ec4ec4ec 0x44ec4ec4ec4ec4e,
    limbs 0x342f94512bb4a874 0xca12d4d544e88024 0x5c28f5c28f5c28f5 0x5c28f5c28f5c28f,
    limbs 0xc509f5ae47afd2cb 0xb5f8c75898461f9e 0xaaaaaaaaaaaaaaaa 0x8aaaaaaaaaaaaaa,
    limbs 0x78643c52d4691cd3 0xeb5012878496b882 0x7a6f4de9bd37a6f4 0x9bd37a6f4de9bd3,
    limbs 0xa6e990241b7f89a2 0xbb216872d8dcb5ac 0x8ba2e8ba2e8ba2e8 0xba2e8ba2e8ba2e,
    limbs 0x2a54867e08c8f0e8 0xf48a086540502423 0x9e79e79e79e79e79 0x9e79e79e79e79e7,
    limbs 0x413b796576a1d291 0x3c978a0a9622a02d 0x3333333333333333 0x733333333333333,
    limbs 0xe1b6e65bf13f15dd 0x23bc3350449e2716 0xf286bca1af286bca 0x6bca1af286bca1a,
    limbs 0x9407268a40987d15 0x4101612bea0af5e1 0xe38e38e38e38e38e 0x638e38e38e38e38,
    limbs 0xe44c758fbb6f7ec2 0x3088821ecc07a880 0x1e1e1e1e1e1e1e1e 0xe1e1e1e1e1e1e1e,
    limbs 0xfb85bef83d0cd23a 0x685ae1592ed6102 0x0 0x500000000000000,
    limbs 0x399e80d3d485d21d 0x49d50f6e91dba14a 0x4444444444444444 0x444444444444444,
    limbs 0xbf7ec9bd0d2d695c 0xeecf0c97e0783634 0x6db6db6db6db6db6 0xedb6db6db6db6db,
    limbs 0x809e6980aabc0e2 0xa8c6d5507f22de4c 0x89d89d89d89d89d8 0x89d89d89d89d89d,
    limbs 0x320188423269d1a9 0x571294d28d94a267 0x5555555555555555 0x155555555555555,
    limbs 0x4dd3204836ff1344 0x7642d0e5b1b96b59 0x1745d1745d1745d1 0x1745d1745d1745d,
    limbs 0x8276f2caed43a522 0x792f14152c45405a 0x6666666666666666 0xe66666666666666,
    limbs 0x280e4d148130fa2a 0x8202c257d415ebc3 0xc71c71c71c71c71c 0xc71c71c71c71c71,
    limbs 0xf70b7df07a19a474 0xd0b5c2b25dac205 0x0 0xa00000000000000,
    limbs 0x26eb305fbd64fecb 0xc8bf1f511df8cf93 0xdb6db6db6db6db6d 0xdb6db6db6db6db6,
    limbs 0x6403108464d3a352 0xae2529a51b2944ce 0xaaaaaaaaaaaaaaaa 0x2aaaaaaaaaaaaaa,
    limbs 0xacdb827b7d917657 0xdd7f2e4bb592e3de 0xcccccccccccccccc 0xccccccccccccccc,
    limbs 0x960498c6973d74fb 0x537be77a8bde735 0x0 0x400000000000000,
    limbs 0xc8062108c9a746a4 0x5c4a534a3652899c 0x5555555555555555 0x555555555555555,
    limbs 0x2c09318d2e7ae9f6 0xa6f7cef517bce6b 0x0 0x800000000000000,
    limbs 0x5812631a5cf5d3ec 0x14def9dea2f79cd6 0x0 0x1000000000000000,
    limbs 0x0 0x0 0x0 0x0,
    limbs 0x1 0x0 0x0 0x0,
    limbs 0x2c09318d2e7ae9f7 0xa6f7cef517bce6b 0x0 0x800000000000000,
    limbs 0x900c4211934e8d49 0xb894a6946ca51339 0xaaaaaaaaaaaaaaaa 0xaaaaaaaaaaaaaaa,
    limbs 0xc20dca53c5b85ef2 0xfa73b66fa39b5a0 0x0 0xc00000000000000,
    limbs 0xab36e09edf645d96 0x375fcb92ed64b8f7 0x3333333333333333 0x333333333333333,
    limbs 0xf40f5295f822309b 0x66b9d03987ce5807 0x5555555555555555 0xd55555555555555,
    limbs 0x312732ba9f90d522 0x4c1fda8d84fecd43 0x2492492492492492 0x249249249249249,
    limbs 0x6106e529e2dc2f79 0x7d39db37d1cdad0 0x0 0x600000000000000,
    limbs 0x30041605dbc4d9c3 0x92dc3786cee1b113 0x38e38e38e38e38e3 0x38e38e38e38e38e,
    limbs 0xd59b704f6fb22ecb 0x9bafe5c976b25c7b 0x9999999999999999 0x199999999999999,
    limbs 0xa3f42d225f6c0a9 0x9e9c28f8f13e317d 0xe8ba2e8ba2e8ba2e 0xe8ba2e8ba2e8ba2,
    limbs 0x2610dad82a8c0244 0xbdcc650c1562fa6f 0xaaaaaaaaaaaaaaaa 0xeaaaaaaaaaaaaaa,
    limbs 0x50087c82524a130b 0x6c18248e23d4be8a 0x7627627627627627 0x762762762762762,
    limbs 0x9893995d4fc86a91 0x260fed46c27f66a1 0x9249249249249249 0x124924924924924,
    limbs 0x1e73e246887001d0 0xcb09ea70111bfb8c 0xbbbbbbbbbbbbbbbb 0xbbbbbbbbbbbbbbb,
    limbs 0x5c8ca4221fe901b3 0xe594bc9100a3bd3 0x0 0xb00000000000000,
    limbs 0x73c5ed8aa186552b 0xe45677bfd6eff455 0xe1e1e1e1e1e1e1e1 0x1e1e1e1e1e1e1e1,
    limbs 0xc40b3c901c5d56d8 0xd3dd98b2b8eca6f4 0x1c71c71c71c71c71 0x9c71c71c71c71c7,
    limbs 0x765b7cbe6bb6be10 0xf122c68e5e5975bf 0xd79435e50d79435 0x9435e50d79435e5,
    limbs 0x16d6e9b4e654015c 0xd8476fd40cd4fca9 0xcccccccccccccccc 0x8cccccccccccccc,
    limbs 0x2dbddc9c542ce305 0x2054f17962a778b3 0x6186186186186186 0x618618618618618,
    limbs 0xb128d2f641764a4b 0x59bd916bca1ae729 0x745d1745d1745d17 0xf45d1745d1745d1,
    limbs 0xdfae26c7888cb71a 0x298ee7571e60e453 0x8590b21642c8590b 0x642c8590b21642c,
    limbs 0x93086d6c15460122 0x5ee632860ab17d37 0x5555555555555555 0x755555555555555,
    limbs 0x23e2cec931412b79 0x4acc25095e0f1cb2 0xa3d70a3d70a3d70a 0xa3d70a3d70a3d70,
    limbs 0x540d6fce579ff37c 0xc07b8f3663662db0 0x3b13b13b13b13b13 0xbb13b13b13b13b1,
    limbs 0xf562f413873ad5df 0x3ede0e6c06f04e3f 0x684bda12f684bda1 0xbda12f684bda12f,
    limbs 0xf852fe3bd65f1f3f 0x9d777392b2bb81bb 0x4924924924924924 0x892492492492492,
    limbs 0x4d42dd8bafb692bd 0xf41a33463e9c9532 0x69ee58469ee58469 0x469ee58469ee584,
    limbs 0xf39f123443800e8 0xe584f538088dfdc6 0xdddddddddddddddd 0x5dddddddddddddd,
    limbs 0xe52e090f0fbb4f77 0x266b173132506a89 0x4210842108421084 0x421084210842108,
    limbs 0xda4f839e3e6f6ad0 0x119c22d3d980ec54 0x0 0xd80000000000000,
    limbs 0xe8cc03024aa0cd81 0x981e09921264790d 0xf83e0f83e0f83e0f 0xf83e0f83e0f83e0,
    limbs 0xe5ec28527f3e148c 0xfc9ab8cf3cf3c895 0xf0f0f0f0f0f0f0f0 0x8f0f0f0f0f0f0f0,
    limbs 0x3d07d6f21fe9c43a 0x759ff882b432f5da 0x750750750750750 0x75075075075075,
    limbs 0x62059e480e2eab6c 0xe9eecc595c76537a 0x8e38e38e38e38e38 0x4e38e38e38e38e3,
    limbs 0x11540f2dfeaf7e3d 0xed5980cefa5d3ce7 0x5306eb3e45306eb3 0x6eb3e45306eb3e4,
    limbs 0xbb2dbe5f35db5f08 0xf89163472f2cbadf 0x86bca1af286bca1a 0x4a1af286bca1af2,
    limbs 0xf163d0411e8f7 0x31f20819234152bd 0xd20d20d20d20d20d 0xd20d20d20d20d20,
    limbs 0x8b6b74da732a00ae 0x6c23b7ea066a7e54 0x6666666666666666 0x466666666666666,
    limbs 0xbdb8baeb70d7d94d 0x1ed0458b4a690696 0xe0c7ce0c7ce0c7ce 0xe0c7ce0c7ce0c7c,
    limbs 0xc2e81fdb58915b79 0x1a99f5ac02cf8ac4 0x30c30c30c30c30c3 0xb0c30c30c30c30c,
    limbs 0xf6550f2c20761f9f 0x7e51d327a529190 0x7d05f417d05f417d 0x17d05f417d05f41,
    limbs 0x49d9b084f360f1c 0xb74e45a536894200 0xba2e8ba2e8ba2e8b 0xfa2e8ba2e8ba2e8,
    limbs 0xb4d14b6cd82555f0 0xee58a37ab05ea92e 0x3e93e93e93e93e93 0x3e93e93e93e93e9,
    limbs 0xefd71363c4465b8d 0x94c773ab8f307229 0x42c8590b21642c85 0x321642c8590b216,
    limbs 0x6a963948414cf0d1 0xb29ed700b937fd28 0x1b3bea3677d46cef 0x77d46cefa8d9df5,
    limbs 0xc98436b60aa30091 0xaf7319430558be9b 0xaaaaaaaaaaaaaaaa 0x3aaaaaaaaaaaaaa,
    limbs 0x81515e8c24133cb9 0xddb42eae12333ba 0x5397829cbc14e5e 0x29cbc14e5e0a72f,
    limbs 0x3dfa98f1c71b7fb3 0x2fd58f7400835cc4 0x51eb851eb851eb85 0xd1eb851eb851eb8]

/-- The inverse of a difference, `SCInverseZero + a - b`. -/
def differenceInverse (a b : UInt32) : Scalar := (scInverse[50 + a.toNat - b.toNat]?.getD 0 : ℕ)

theorem scInverse_mul : ∀ i < 101, i ≠ 50 → scInverse[i]?.getD 0 * (i + (groupOrder - 50)) % groupOrder = 1 := by
  decide +kernel

theorem differenceInverse_eq {a b : UInt32} (apart : a ≠ b) (above : a.toNat ≤ 50 + b.toNat)
    (below : b.toNat ≤ 50 + a.toNat) : differenceInverse a b = ((a.toNat : Scalar) - b.toNat)⁻¹ := by
  have other : a.toNat ≠ b.toNat := fun same => apart (UInt32.toNat_inj.1 same)
  have product := scInverse_mul (50 + a.toNat - b.toNat) (by omega) (by omega)
  have cast := congrArg (Nat.cast : ℕ → Scalar) product
  have shift : ((50 + a.toNat - b.toNat + (groupOrder - 50) : ℕ) : Scalar) = (a.toNat : Scalar) - b.toNat := by
    have sum : 50 + a.toNat - b.toNat + (groupOrder - 50) + b.toNat = a.toNat + groupOrder := by
      have large : 50 ≤ groupOrder := by decide
      omega
    have casts := congrArg (Nat.cast : ℕ → Scalar) sum
    rw [Nat.cast_add, Nat.cast_add a.toNat, ZMod.natCast_self, add_zero] at casts
    exact eq_sub_of_add_eq casts
  rw [ZMod.natCast_mod, Nat.cast_mul, shift, Nat.cast_one] at cast
  exact eq_inv_of_mul_eq_one_left cast

section Newton

/-- What the loop of `MPNewton` keeps: the abscissas so far, the last first, the divided differences that
end with the last one, the basis and the sum. -/
structure NewtonTurn where
  seen : List UInt32
  vDiff : List Scalar
  basis : Scalar
  s0 : Scalar

/-- The inner loop from one difference on. The earlier abscissas come with the differences of the row
before. -/
def newtonRow (x : UInt32) : Scalar → List (UInt32 × Scalar) → List Scalar
  | diff, [] => [diff]
  | diff, (x', diff') :: rest => diff :: newtonRow x ((diff - diff') * differenceInverse x x') rest

def newtonTurn (turn : NewtonTurn) (share : UInt32 × UInt256) : NewtonTurn :=
  let vDiff := newtonRow share.1 (ofWord share.2) (turn.seen.zip turn.vDiff)
  { seen := share.1 :: turn.seen
    vDiff
    basis := -(turn.basis * share.1.toNat)
    s0 := turn.s0 + turn.basis * vDiff.getLastD 0 }

def mpNewton (vShare : List (UInt32 × UInt256)) : UInt256 := toWord (vShare.foldl newtonTurn ⟨[], [], 1, 0⟩).s0

def node (x : UInt32) : Scalar := (x.toNat : Scalar)

theorem node_ne {a b : UInt32} (small : a.toNat < groupOrder) (small' : b.toNat < groupOrder) (apart : a ≠ b) :
    node a ≠ node b := by
  intro same
  apply apart
  apply UInt32.toNat_inj.1
  rw [node, node, ZMod.natCast_eq_natCast_iff', Nat.mod_eq_of_lt small, Nat.mod_eq_of_lt small'] at same
  exact same

def InTable (x : UInt32) : Prop := 1 ≤ x.toNat ∧ x.toNat ≤ 51

theorem InTable.small {x : UInt32} (reach : InTable x) : x.toNat < groupOrder :=
  reach.2.trans_lt (by decide)

theorem newtonRow_eq {x : UInt32} (reach : InTable x) {seen : List UInt32} (reaches : ∀ a ∈ seen, InTable a)
    (fresh : x ∉ seen) (p : Scalar[X]) :
    newtonRow x (p.eval (node x)) (seen.zip (differenceDiagonal p (seen.map node))) =
      differenceRow (node x) p (seen.map node) := by
  induction seen generalizing p with
  | nil => rfl
  | cons a seen ih =>
    have apart : x ≠ a := fun same => fresh (same ▸ mem_cons_self)
    have reachA := reaches a mem_cons_self
    have inverse : differenceInverse x a = (node x - node a)⁻¹ := by
      obtain ⟨low, high⟩ := reach
      obtain ⟨lowA, highA⟩ := reachA
      exact differenceInverse_eq apart (by omega) (by omega)
    rw [map_cons, differenceDiagonal, zip_cons_cons, newtonRow, differenceRow, inverse,
      ← eval_divByMonic p (node_ne reach.small reachA.small apart)]
    rw [ih (fun b mem => reaches b (mem_cons_of_mem _ mem)) fun mem => fresh (mem_cons_of_mem _ mem)]

/-- The loop has the abscissas, their differences, and all of the value at 0 but a multiple of a quotient. -/
structure NewtonTurn.Interpolates (turn : NewtonTurn) (p : Scalar[X]) : Prop where
  differences : turn.vDiff = differenceDiagonal p (turn.seen.map node)
  value : p.eval 0 = turn.s0 + turn.basis * (nodeQuotient p (turn.seen.map node)).eval 0

variable {p : Scalar[X]}

theorem newtonTurn_interpolates {turn : NewtonTurn} (interpolates : turn.Interpolates p)
    (reaches : ∀ a ∈ turn.seen, InTable a) {share : UInt32 × UInt256} (reach : InTable share.1)
    (fresh : share.1 ∉ turn.seen) (on : ofWord share.2 = p.eval (node share.1)) :
    (newtonTurn turn share).Interpolates p := by
  have row := newtonRow_eq reach reaches fresh p
  have apart : node share.1 ∉ turn.seen.map node := by
    intro mem
    obtain ⟨a, here, same⟩ := List.mem_map.1 mem
    have other : a ≠ share.1 := fun equal => fresh (equal ▸ here)
    exact node_ne (reaches a here).small reach.small other same
  constructor
  · show newtonRow share.1 (ofWord share.2) (turn.seen.zip turn.vDiff) =
      differenceDiagonal p ((share.1 :: turn.seen).map node)
    rw [interpolates.differences, on, row, map_cons, differenceDiagonal_cons p apart]
  · show p.eval 0 = turn.s0 + turn.basis * (newtonRow share.1 (ofWord share.2) (turn.seen.zip turn.vDiff)).getLastD 0 +
      -(turn.basis * node share.1) * (nodeQuotient p ((share.1 :: turn.seen).map node)).eval 0
    rw [interpolates.differences, on, row, getLastD_differenceRow, map_cons, nodeQuotient_cons, interpolates.value,
      eval_eq_add_divByMonic _ (node share.1) 0]
    ring

theorem newtonLoop_interpolates {vShare : List (UInt32 × UInt256)} (reaches : ∀ share ∈ vShare, InTable share.1)
    (distinct : (vShare.map Prod.fst).Nodup) (on : ∀ share ∈ vShare, ofWord share.2 = p.eval (node share.1)) :
    (vShare.foldl newtonTurn ⟨[], [], 1, 0⟩).Interpolates p ∧
      (vShare.foldl newtonTurn ⟨[], [], 1, 0⟩).seen = (vShare.map Prod.fst).reverse := by
  induction vShare using List.reverseRecOn with
  | nil =>
    refine ⟨⟨rfl, ?_⟩, rfl⟩
    show p.eval 0 = 0 + 1 * (nodeQuotient p []).eval 0
    rw [nodeQuotient_nil, zero_add, one_mul]
  | append_singleton vShare share ih =>
    rw [map_append, nodup_append] at distinct
    obtain ⟨interpolates, seen⟩ := ih (fun other mem => reaches other (mem_append_left _ mem)) distinct.1
      fun other mem => on other (mem_append_left _ mem)
    have last : share ∈ vShare ++ [share] := by simp
    rw [foldl_append]
    constructor
    · apply newtonTurn_interpolates interpolates _ (reaches share last) _ (on share last)
      · intro a mem
        rw [seen, mem_reverse] at mem
        obtain ⟨other, here, rfl⟩ := List.mem_map.1 mem
        exact reaches other (mem_append_left _ here)
      · intro mem
        rw [seen, mem_reverse] at mem
        exact distinct.2.2 _ mem _ (by simp) rfl
    · show share.1 :: (vShare.foldl newtonTurn ⟨[], [], 1, 0⟩).seen = _
      rw [seen, map_append, reverse_append]
      rfl

/-- Shares of a polynomial with as many distinct abscissas as it has coefficients give its value at 0. -/
theorem mpNewton_eq {vShare : List (UInt32 × UInt256)} (low : p.degree < vShare.length)
    (reaches : ∀ share ∈ vShare, InTable share.1) (distinct : (vShare.map Prod.fst).Nodup)
    (on : ∀ share ∈ vShare, ofWord share.2 = p.eval (node share.1)) : mpNewton vShare = toWord (p.eval 0) := by
  obtain ⟨interpolates, seen⟩ := newtonLoop_interpolates reaches distinct on
  have nothing : nodeQuotient p ((vShare.map Prod.fst).reverse.map node) = 0 :=
    nodeQuotient_eq_zero (by simpa using low)
  rw [mpNewton, interpolates.value, seen, nothing, eval_zero, mul_zero, add_zero]

end Newton

section Lagrange
variable {p : Scalar[X]} (vShare : List (UInt32 × UInt256))

/-- The inner loop of `MPLagrange` -/
def lagrangeWeight (i : Fin vShare.length) : Scalar :=
  (finRange vShare.length).foldl (fun l j =>
    if i ≠ j then l * (differenceInverse vShare[j].1 vShare[i].1 * vShare[j].1.toNat) else l) 1

def mpLagrange : UInt256 :=
  toWord ((finRange vShare.length).foldl (fun s0 i => s0 + lagrangeWeight vShare i * ofWord vShare[i].2) 0)

variable {vShare} (distinct : (vShare.map Prod.fst).Nodup)
include distinct

theorem eq_of_first {i j : Fin vShare.length} (same : vShare[i].1 = vShare[j].1) : i = j := by
  have index := (nodup_iff_injective_getElem.1 distinct).eq_iff (a := i.cast (by simp)) (b := j.cast (by simp))
  simp only [Fin.val_cast, getElem_map] at index
  exact Fin.cast_injective _ (index.1 same)

variable (reaches : ∀ share ∈ vShare, InTable share.1)
include reaches

theorem lagrangeWeight_eq (i : Fin vShare.length) : lagrangeWeight vShare i =
    (Lagrange.basis Finset.univ (fun i : Fin vShare.length => node vShare[i].1) i).eval 0 := by
  have others : lagrangeWeight vShare i = (((finRange vShare.length).filter (i ≠ ·)).map fun j =>
      differenceInverse vShare[j].1 vShare[i].1 * node vShare[j].1).prod := by
    rw [prod_eq_foldl, foldl_map, foldl_filter]
    simp only [decide_eq_true_eq]
    rfl
  rw [others, ← prod_toFinset _ ((nodup_finRange _).filter _), toFinset_filter, toFinset_finRange, Lagrange.basis,
    eval_prod]
  simp only [decide_eq_true_eq]
  rw [Finset.filter_ne]
  apply Finset.prod_congr rfl
  intro j mem
  obtain ⟨lowI, highI⟩ := reaches _ (getElem_mem i.isLt)
  obtain ⟨lowJ, highJ⟩ := reaches _ (getElem_mem j.isLt)
  have apart : vShare[j].1 ≠ vShare[i].1 := fun same => Finset.ne_of_mem_erase mem (eq_of_first distinct same)
  rw [differenceInverse_eq apart (highJ.trans (Nat.add_le_add_left lowI 50))
    (highI.trans (Nat.add_le_add_left lowJ 50)), Lagrange.basisDivisor, eval_mul, eval_C, eval_sub, eval_X, eval_C,
    zero_sub, mul_neg, ← neg_mul, ← inv_neg, neg_sub]
  rfl

theorem mpLagrange_eq (low : p.degree < vShare.length) (on : ∀ share ∈ vShare, ofWord share.2 = p.eval (node share.1)) :
    mpLagrange vShare = toWord (p.eval 0) := by
  have apart : Function.Injective fun i : Fin vShare.length => node vShare[i].1 := by
    intro i j same
    by_contra other
    exact node_ne (reaches _ (getElem_mem i.isLt)).small (reaches _ (getElem_mem j.isLt)).small
      (fun equal => other (eq_of_first distinct equal)) same
  have whole := Lagrange.eq_interpolate (s := Finset.univ) apart.injOn (by simpa using low)
  rw [mpLagrange]
  conv_rhs => rw [whole, Lagrange.interpolate_apply, eval_finsetSum]
  rw [← foldl_map (f := fun i => lagrangeWeight vShare i * ofWord vShare[i].2) (g := (· + ·)), ← sum_eq_foldl,
    ← Fin.sum_univ_def]
  congr 1
  apply Finset.sum_congr rfl
  intro i _
  rw [eval_mul, eval_C, lagrangeWeight_eq distinct reaches, mul_comm, on vShare[i] (getElem_mem i.isLt)]

end Lagrange

/-- As many shares as the polynomial has coefficients, at different places of the table and in any order, give its value
at 0 by both interpolations. -/
theorem interpolation_recovers (k : ℕ) (positive : 1 ≤ k) (f : Scalar[X]) (low : f.degree < k)
    (vShare : List (UInt32 × UInt256)) (count : vShare.length = k) (reaches : ∀ share ∈ vShare, InTable share.1)
    (distinct : (vShare.map Prod.fst).Nodup) (on : ∀ share ∈ vShare, ofWord share.2 = f.eval (node share.1)) :
    (mpNewton vShare).toNat = (f.eval 0).val ∧ (mpLagrange vShare).toNat = (f.eval 0).val := by
  subst count
  rw [mpNewton_eq low reaches distinct on, mpLagrange_eq distinct reaches low on, toNat_toWord]
  exact ⟨rfl, rfl⟩

theorem interpolation_recovers_line : (mpNewton [(2, 7), (1, 6)]).toNat = 5 ∧ (mpLagrange [(2, 7), (1, 6)]).toNat = 5 := by
  have line : (X + C 5 : Scalar[X]).eval 0 = 5 := by simp
  have low : (X + C 5 : Scalar[X]).degree < (2 : ℕ) := by
    rw [degree_X_add_C]
    decide
  have value : (5 : Scalar).val = 5 := by decide +kernel
  have shares := interpolation_recovers 2 (by decide) (X + C 5) low [(2, 7), (1, 6)] rfl (by simp [InTable]) (by decide)
    (by simp [ofWord, node]; norm_num)
  rwa [line, value] at shares

end HashAhead.Mpvss
