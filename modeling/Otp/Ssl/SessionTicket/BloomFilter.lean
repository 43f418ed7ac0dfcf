import Mathlib

/-!
# Bloom filters with two halves

`tls_bloom_filter`: a filter of `m` bits with `k` hash positions per element. It
has a current half, into which elements are added, and an old one. A rotation
makes the current half the old one and starts an empty one, so that an element
is remembered until the second rotation after it was added.

A bit outside of its field makes the binary match of the source fail, which is
`none` here.
-/

namespace Otp.Ssl.SessionTicket

open List

/-- The bits of a half, eight in a byte. -/
abbrev BitField := List (BitVec 8)

/-- `bit_is_set(BitField, N)`. -/
def bitIsSet (field : BitField) (n : ℕ) : Option Bool :=
  let byteOffset := n >>> 3
  let bitOffset := 7 - (n &&& 7)
  match field[byteOffset]? with
  | some byte => some ((byte >>> bitOffset) &&& 1#8 == 1#8)
  | none => none

/-- `set_bit(BitField, N)`. -/
def setBit (field : BitField) (n : ℕ) : Option BitField :=
  let byteOffset := n >>> 3
  let bitOffset := 7 - (n &&& 7)
  match field[byteOffset]? with
  | some byte => some (field.set byteOffset (byte ||| (1#8 <<< bitOffset)))
  | none => none

/-- `set_bits(BitField, Hash)`. -/
def setBits (field : BitField) : List ℕ → Option BitField
  | [] => some field
  | h :: t =>
    match setBit field h with
    | some field => setBits field t
    | none => none

/-- `lists:all(fun (Pos) -> bit_is_set(BitField, Pos) end, Hash)`. -/
def allSet (field : BitField) : List ℕ → Option Bool
  | [] => some true
  | h :: t =>
    match bitIsSet field h with
    | some true => allSet field t
    | some false => some false
    | none => none

/-- The loop of `hash/3`. -/
def hashLoop (h1 h2 m : ℕ) : ℕ → List ℕ → List ℕ
  | 0, acc => acc
  | k + 1, acc => hashLoop h1 h2 m k ((h1 + k * h2) % m :: acc)

/-- `phash2({Elem, I}, M)`, a number below `M`. -/
structure Phash2 (β : Type*) where
  hash : β → ℕ → ℕ → ℕ
  hash_lt : ∀ elem i m, 0 < m → hash elem i m < m

/-- A filter. -/
structure BloomFilter where
  k : ℕ
  m : ℕ
  current : BitField
  old : BitField

namespace BloomFilter

variable {β : Type*} (P : Phash2 β)

/-- A half without elements: as many bytes as hold `m` bits. -/
def emptyField (m : ℕ) : BitField := List.replicate ((m + 7) / 8) 0#8

/-- `new(K, M)`. -/
def new (k m : ℕ) : BloomFilter := ⟨k, m, emptyField m, emptyField m⟩

/-- `hash(Elem, K, M)`. -/
def hash (elem : β) (k m : ℕ) : List ℕ := hashLoop (P.hash elem 0 m) (P.hash elem 1 m) m k []

/-- `add_elem(BloomFilter, Elem)`. -/
def addElem (filter : BloomFilter) (elem : β) : Option BloomFilter :=
  match setBits filter.current (hash P elem filter.k filter.m) with
  | some field => some { filter with current := field }
  | none => none

/-- `contains(BloomFilter, Elem)`. -/
def contains (filter : BloomFilter) (elem : β) : Option Bool :=
  let positions := hash P elem filter.k filter.m
  match allSet filter.current positions with
  | some true => some true
  | some false => allSet filter.old positions
  | none => none

/-- `rotate(BloomFilter)`. -/
def rotate (filter : BloomFilter) : BloomFilter :=
  { filter with current := emptyField filter.m, old := filter.current }

end BloomFilter

/-! ## Bits of a field -/

/-- The bit at a position; false outside of the field. -/
def bitAt (field : BitField) (n : ℕ) : Bool := (bitIsSet field n).getD false

variable {field : BitField} {n : ℕ}

theorem bitIsSet_eq (h : n / 8 < field.length) : bitIsSet field n = some (bitAt field n) := by
  have hn : n >>> 3 < field.length := by rwa [Nat.shiftRight_eq_div_pow]
  unfold bitAt bitIsSet
  simp only [List.getElem?_eq_getElem hn, Option.getD_some]

theorem byte_bit (byte : BitVec 8) (s : ℕ) : (byte >>> s &&& 1#8 == 1#8) = byte.getLsbD s := by
  have hone : ∀ b : BitVec 8, (b &&& 1#8 == 1#8) = b.getLsbD 0 := by decide
  rw [hone, BitVec.getLsbD_ushiftRight, Nat.add_zero]

/-- A byte has the bit set that an or with its mask sets, and its other bits as before. -/
theorem byte_bit_or (byte : BitVec 8) {i j : ℕ} (hi : i < 8) (hj : j < 8) :
    (((byte ||| (1#8 <<< (7 - i))) >>> (7 - j)) &&& 1#8 == 1#8) =
      (i == j || ((byte >>> (7 - j)) &&& 1#8 == 1#8)) := by
  have hmask : ∀ i < 8, ∀ j < 8, (1#8 <<< (7 - i)).getLsbD (7 - j) = (i == j) := by decide
  rw [byte_bit, byte_bit, BitVec.getLsbD_or, hmask i hi j hj, Bool.or_comm]

theorem setBit_eq (h : n / 8 < field.length) :
    ∃ field', setBit field n = some field' ∧ field'.length = field.length ∧
      ∀ p, bitAt field' p = (p == n || bitAt field p) := by
  have hn : n >>> 3 < field.length := by rwa [Nat.shiftRight_eq_div_pow]
  unfold setBit
  simp only [List.getElem?_eq_getElem hn]
  refine ⟨_, rfl, length_set, ?_⟩
  intro p
  unfold bitAt bitIsSet
  have h7 : ∀ q : ℕ, q &&& 7 = q % 8 := fun q => Nat.and_two_pow_sub_one_eq_mod q 3
  have h3 : ∀ q : ℕ, q >>> 3 = q / 8 := fun q => Nat.shiftRight_eq_div_pow q 3
  rw [h3] at hn
  simp only [h7, h3]
  by_cases hbyte : p / 8 = n / 8
  · rw [hbyte, List.getElem?_set_self hn, List.getElem?_eq_getElem hn]
    have hpn : (n % 8 == p % 8) = (p == n) := by
      rw [Bool.eq_iff_iff, beq_iff_eq, beq_iff_eq]
      omega
    simp only [Option.getD_some]
    rw [byte_bit_or _ (Nat.mod_lt _ (by omega)) (Nat.mod_lt _ (by omega)), hpn]
  · have hpn : (p == n) = false := by
      rw [beq_eq_false_iff_ne]
      intro heq
      exact hbyte (by rw [heq])
    rw [List.getElem?_set_ne (Ne.symm hbyte), hpn, Bool.false_or]

theorem setBits_eq : ∀ {positions : List ℕ} {field : BitField},
    (∀ p ∈ positions, p / 8 < field.length) →
      ∃ field', setBits field positions = some field' ∧ field'.length = field.length ∧
        ∀ p, bitAt field' p = (positions.contains p || bitAt field p) := by
  intro positions
  induction positions with
  | nil =>
    intro field _
    exact ⟨field, rfl, rfl, fun p => by simp⟩
  | cons h t ih =>
    intro field hlen
    obtain ⟨field₁, heq₁, hl₁, hb₁⟩ := setBit_eq (hlen h mem_cons_self)
    have hlen₁ : ∀ p ∈ t, p / 8 < field₁.length := by
      intro p hp
      rw [hl₁]
      exact hlen p (mem_cons_of_mem _ hp)
    obtain ⟨field₂, heq₂, hl₂, hb₂⟩ := ih hlen₁
    refine ⟨field₂, ?_, hl₂.trans hl₁, ?_⟩
    · rw [setBits, heq₁]
      exact heq₂
    · intro p
      rw [hb₂, hb₁, contains_cons, Bool.or_left_comm, Bool.or_assoc]

theorem allSet_eq {positions : List ℕ} (h : ∀ p ∈ positions, p / 8 < field.length) :
    allSet field positions = some (positions.all (bitAt field ·)) := by
  induction positions with
  | nil => rfl
  | cons p t ih =>
    rw [allSet, bitIsSet_eq (h p mem_cons_self), all_cons]
    cases bitAt field p with
    | false => rfl
    | true => exact ih fun q hq => h q (mem_cons_of_mem _ hq)

/-! ## What a filter remembers -/

namespace BloomFilter

variable {β : Type*} {P : Phash2 β} {filter : BloomFilter} {m k : ℕ} {elem : β}

/-- The halves of the filter hold its bits. -/
structure Fits (filter : BloomFilter) : Prop where
  current : filter.current.length = (filter.m + 7) / 8
  old : filter.old.length = (filter.m + 7) / 8

theorem length_emptyField (m : ℕ) : (emptyField m).length = (m + 7) / 8 := length_replicate

theorem fits_new (k m : ℕ) : (new k m).Fits := ⟨length_emptyField m, length_emptyField m⟩

theorem Fits.rotate (h : filter.Fits) : filter.rotate.Fits :=
  ⟨length_emptyField filter.m, h.current⟩

theorem hashLoop_lt {h1 h2 : ℕ} (hm : 0 < m) : ∀ (k : ℕ) {acc : List ℕ},
    (∀ p ∈ acc, p < m) → ∀ p ∈ hashLoop h1 h2 m k acc, p < m := by
  intro k
  induction k with
  | zero =>
    intro acc hacc
    exact hacc
  | succ k ih =>
    intro acc hacc
    apply ih
    exact forall_mem_cons.mpr ⟨Nat.mod_lt _ hm, hacc⟩

theorem length_hashLoop (h1 h2 m : ℕ) : ∀ (k : ℕ) (acc : List ℕ),
    (hashLoop h1 h2 m k acc).length = k + acc.length := by
  intro k
  induction k with
  | zero =>
    intro acc
    exact (Nat.zero_add _).symm
  | succ k ih =>
    intro acc
    rw [hashLoop, ih, length_cons]
    omega

/-- The positions of an element lie in the filter. -/
theorem hash_inside {p : ℕ} (hm : 0 < m) (hp : p ∈ hash P elem k m) : p / 8 < (m + 7) / 8 := by
  have hlt : p < m := hashLoop_lt hm k (by simp) p hp
  omega

theorem hash_ne_nil (hk : 0 < k) : hash P elem k m ≠ [] := by
  intro hnil
  have hlen := length_hashLoop (P.hash elem 0 m) (P.hash elem 1 m) m k []
  unfold hash at hnil
  rw [hnil] at hlen
  omega

/-- All positions of the element are set. -/
def Has (P : Phash2 β) (filter : BloomFilter) (field : BitField) (elem : β) : Prop :=
  ∀ p ∈ hash P elem filter.k filter.m, bitAt field p = true

/-- What `contains` answers: whether one of the halves has the element. -/
theorem contains_eq (h : filter.Fits) (hm : 0 < filter.m) (elem : β) :
    ∃ b, filter.contains P elem = some b ∧
    (b = true ↔ Has P filter filter.current elem ∨ Has P filter filter.old elem) := by
  have hin : ∀ p ∈ hash P elem filter.k filter.m, p / 8 < (filter.m + 7) / 8 :=
    fun p hp => hash_inside hm hp
  unfold contains
  dsimp only
  rw [allSet_eq (h.current ▸ hin), allSet_eq (h.old ▸ hin)]
  cases hc : (hash P elem filter.k filter.m).all (bitAt filter.current ·) with
  | true =>
    refine ⟨true, rfl, ?_⟩
    rw [all_eq_true] at hc
    exact ⟨fun _ => .inl hc, fun _ => rfl⟩
  | false =>
    refine ⟨_, rfl, ?_⟩
    rw [all_eq_true]
    refine ⟨.inr, ?_⟩
    rintro (hcur | hold)
    · have : (hash P elem filter.k filter.m).all (bitAt filter.current ·) = true :=
        all_eq_true.mpr hcur
      rw [hc] at this
      cases this
    · exact hold

/-- A filter without positions or without bits never lacks an element. -/
theorem pos_of_contains_eq_false (h : filter.Fits) (hc : filter.contains P elem = some false) :
    0 < filter.k ∧ 0 < filter.m := by
  constructor
  · apply Nat.pos_of_ne_zero
    intro hk
    simp [contains, hash, hk, hashLoop, allSet] at hc
  · apply Nat.pos_of_ne_zero
    intro hm
    have hnil : filter.current = [] := by
      rw [← length_eq_zero_iff, h.current, hm]
    unfold contains at hc
    rw [hnil] at hc
    revert hc
    cases hash P elem filter.k filter.m with
    | nil => simp [allSet]
    | cons p t => simp [allSet, bitIsSet]

/-- Adding an element succeeds; the current half has it and what it had before. -/
theorem addElem_eq (h : filter.Fits) (hm : 0 < filter.m) (elem : β) : ∃ field,
    filter.addElem P elem = some { filter with current := field } ∧
      BloomFilter.Fits { filter with current := field } ∧ Has P filter field elem ∧
      ∀ elem', Has P filter filter.current elem' → Has P filter field elem' := by
  have hin : ∀ p ∈ hash P elem filter.k filter.m, p / 8 < filter.current.length := by
    intro p hp
    rw [h.current]
    exact hash_inside hm hp
  obtain ⟨field, heq, hlen, hbit⟩ := setBits_eq hin
  refine ⟨field, ?_, ⟨hlen.trans h.current, h.old⟩, ?_, ?_⟩
  · unfold addElem
    rw [heq]
  · intro p hp
    rw [hbit, contains_iff_mem.mpr hp, Bool.true_or]
  · intro elem' hhas p hp
    rw [hbit, hhas p hp, Bool.or_true]

theorem bitAt_emptyField (m p : ℕ) : bitAt (emptyField m) p = false := by
  unfold bitAt bitIsSet emptyField
  dsimp only
  by_cases hp : p >>> 3 < (m + 7) / 8
  · rw [List.getElem?_replicate_of_lt hp]
    show (0#8 >>> _ &&& 1#8 == 1#8) = false
    simp
  · rw [List.getElem?_eq_none (by simpa using hp)]
    rfl

/-- An empty half has no element. -/
theorem not_has_emptyField (hk : 0 < filter.k) (elem : β) : ¬ Has P filter (emptyField m) elem := by
  intro hhas
  have hne : hash P elem filter.k filter.m ≠ [] := hash_ne_nil hk
  obtain ⟨p, hp⟩ := exists_mem_of_ne_nil _ hne
  have := hhas p hp
  rw [bitAt_emptyField] at this
  cases this

end BloomFilter

end Otp.Ssl.SessionTicket
