import OpenWatcom.Cfloat.Integers

/-! # Tests for the range of an integer type

`CFIsI8` to `CFIsU64` and the tests that are made of them.  A test asks for one type or two (`RangeTest.types`), and
each of the eight is `CFIsIntType` with its own limit.  The limit of `CFIsI64` is not `2 ^ 63`
(`rangeTest_exact_iff`). -/

namespace OpenWatcom.Cfloat

/-! ### The tests -/

inductive IntType where
  | i8 | i16 | i32 | i64 | u8 | u16 | u32 | u64
  deriving DecidableEq, Repr

namespace IntType

def bits : IntType → ℕ
  | i8 | u8 => 8
  | i16 | u16 => 16
  | i32 | u32 => 32
  | i64 | u64 => 64

def signed : IntType → Bool
  | i8 | i16 | i32 | i64 => true
  | u8 | u16 | u32 | u64 => false

/-- `n` is a value of the type. -/
def Has (t : IntType) (n : ℤ) : Prop :=
  if t.signed then -2 ^ (t.bits - 1) ≤ n ∧ n < 2 ^ (t.bits - 1) else 0 ≤ n ∧ n < 2 ^ t.bits

instance (t : IntType) (n : ℤ) : Decidable (t.Has n) := inferInstanceAs (Decidable (ite _ _ _))

def test : IntType → CFloat → Bool
  | i8 => cfIsI8
  | i16 => cfIsI16
  | i32 => cfIsI32
  | i64 => cfIsI64
  | u8 => cfIsU8
  | u16 => cfIsU16
  | u32 => cfIsU32
  | u64 => cfIsU64

end IntType

def cfIs32 (f : CFloat) : Bool := cfIsI32 f || cfIsU32 f

def cfIs64 (f : CFloat) : Bool := cfIsI64 f || cfIsU64 f

def cfIsSize (f : CFloat) (size : ℕ) : Bool :=
  match size with
  | 1 => cfIsU8 f || cfIsI8 f
  | 2 => cfIsU16 f || cfIsI16 f
  | 4 => cfIsU32 f || cfIsI32 f
  | 8 => cfIsU64 f || cfIsI64 f
  | _ => false

def cfSignedSize (f : CFloat) (size : ℕ) : Bool :=
  match size with
  | 1 => cfIsI8 f
  | 2 => cfIsI16 f
  | 4 => cfIsI32 f
  | 8 => cfIsI64 f
  | _ => false

def cfUnSignedSize (f : CFloat) (size : ℕ) : Bool :=
  match size with
  | 1 => cfIsU8 f
  | 2 => cfIsU16 f
  | 4 => cfIsU32 f
  | 8 => cfIsU64 f
  | _ => false

/-- A call of one of the tests. -/
inductive RangeTest where
  | isType (t : IntType)
  | is32
  | is64
  | isSize (size : ℕ)
  | signedSize (size : ℕ)
  | unSignedSize (size : ℕ)
  deriving DecidableEq, Repr

namespace RangeTest

def run : RangeTest → CFloat → Bool
  | isType t, f => t.test f
  | is32, f => cfIs32 f
  | is64, f => cfIs64 f
  | isSize size, f => cfIsSize f size
  | signedSize size, f => cfSignedSize f size
  | unSignedSize size, f => cfUnSignedSize f size

/-- The signed and the unsigned type of a size in bytes. -/
def typesOf : ℕ → Option (IntType × IntType)
  | 1 => some (.i8, .u8)
  | 2 => some (.i16, .u16)
  | 4 => some (.i32, .u32)
  | 8 => some (.i64, .u64)
  | _ => none

/-- The types that a test asks for. -/
def types : RangeTest → List IntType
  | isType t => [t]
  | is32 => [.i32, .u32]
  | is64 => [.i64, .u64]
  | isSize size => (typesOf size).toList.flatMap fun p => [p.2, p.1]
  | signedSize size => (typesOf size).toList.map Prod.fst
  | unSignedSize size => (typesOf size).toList.map Prod.snd

/-- An integer of one of the types. -/
def Holds (q : RangeTest) (f : CFloat) : Prop := ∃ n : ℤ, f.val = n ∧ ∃ t ∈ q.types, t.Has n

/-- The integers that only the limit of `CFIsI64` lets in. -/
def Misses (q : RangeTest) (n : ℤ) : Prop :=
  .i64 ∈ q.types ∧ (-9223372936854775807 ≤ n ∧ n < -2 ^ 63 ∨
    .u64 ∉ q.types ∧ 2 ^ 63 ≤ n ∧ n < 9223372936854775807)

theorem size_cases (size : ℕ) : size = 1 ∨ size = 2 ∨ size = 4 ∨ size = 8 ∨ typesOf size = none ∧
    ∀ f, cfIsSize f size = false ∧ cfSignedSize f size = false ∧ cfUnSignedSize f size = false := by
  by_cases h : size = 1 ∨ size = 2 ∨ size = 4 ∨ size = 8
  · omega
  · refine .inr (.inr (.inr (.inr ⟨?_, fun f => ⟨?_, ?_, ?_⟩⟩)))
    · unfold typesOf
      split <;> first | rfl | omega
    · unfold cfIsSize
      split <;> first | rfl | omega
    · unfold cfSignedSize
      split <;> first | rfl | omega
    · unfold cfUnSignedSize
      split <;> first | rfl | omega

theorem run_eq (q : RangeTest) (f : CFloat) : q.run f = q.types.any fun t => t.test f := by
  cases q with
  | isType t => exact (Bool.or_false _).symm
  | is32 => simp [run, types, cfIs32, IntType.test]
  | is64 => simp [run, types, cfIs64, IntType.test]
  | isSize size =>
      obtain rfl | rfl | rfl | rfl | ⟨hnone, hfalse⟩ := size_cases size
      iterate 4 simp [run, types, typesOf, cfIsSize, IntType.test]
      simp [run, types, hnone, (hfalse f).1]
  | signedSize size =>
      obtain rfl | rfl | rfl | rfl | ⟨hnone, hfalse⟩ := size_cases size
      iterate 4 simp [run, types, typesOf, cfSignedSize, IntType.test]
      simp [run, types, hnone, (hfalse f).2.1]
  | unSignedSize size =>
      obtain rfl | rfl | rfl | rfl | ⟨hnone, hfalse⟩ := size_cases size
      iterate 4 simp [run, types, typesOf, cfUnSignedSize, IntType.test]
      simp [run, types, hnone, (hfalse f).2.2]

/-- A test for signed 64 bits asks for types of that size only. -/
theorem eq_of_mem_types {q : RangeTest} (h : .i64 ∈ q.types) {t : IntType} (ht : t ∈ q.types) :
    t = .i64 ∨ t = .u64 := by
  have hsize : ∀ {size p}, typesOf size = some p → .i64 = p.1 ∨ .i64 = p.2 → p = (.i64, .u64) := by
    intro size p hp hmem
    unfold typesOf at hp
    split at hp <;> simp_all
    all_goals
      subst hp
      simp at hmem
  cases q with
  | isType s =>
      obtain rfl := List.mem_singleton.mp h
      exact .inl (List.mem_singleton.mp ht)
  | is32 => simp [types] at h
  | is64 => simpa [types] using ht
  | isSize size =>
      unfold types at h ht
      cases hp : typesOf size with
      | none => simp [hp] at h
      | some p =>
          simp only [hp, Option.toList_some, List.flatMap_singleton, List.mem_cons, List.not_mem_nil,
            or_false] at h ht
          rw [hsize hp h.symm] at ht
          exact ht.symm
  | signedSize size =>
      unfold types at h ht
      cases hp : typesOf size with
      | none => simp [hp] at h
      | some p =>
          simp only [hp, Option.toList_some, List.map_singleton, List.mem_singleton] at h ht
          rw [hsize hp (.inl h)] at ht
          exact .inl ht
  | unSignedSize size =>
      unfold types at h ht
      cases hp : typesOf size with
      | none => simp [hp] at h
      | some p =>
          simp only [hp, Option.toList_some, List.map_singleton, List.mem_singleton] at h ht
          rw [hsize hp (.inr h)] at ht
          exact .inr ht

end RangeTest

/-! ### What they find -/

/-- The integers that a test for one type finds. -/
def IntType.Accepts (t : IntType) (n : ℤ) : Prop :=
  if t = .i64 then -9223372936854775807 ≤ n ∧ n < 9223372936854775807 else t.Has n

theorem IntType.test_iff (t : IntType) {f : CFloat} (hf : f.Normal) :
    t.test f = true ↔ ∃ n : ℤ, f.val = n ∧ t.Accepts n := by
  have hle : ∀ {n : ℤ} {m : ℕ}, n ≤ m ↔ n < m + 1 := Int.lt_add_one_iff.symm
  cases t with
  | i8 => exact cfIsIntType_const hf (.inr rfl) (by decide) rfl
  | i16 => exact cfIsIntType_const hf (.inr rfl) (by decide) rfl
  | i32 => exact cfIsI32_iff hf
  | i64 => exact cfIsI64_iff hf
  | u8 =>
      refine (cfIsIntType_const hf (.inl rfl) (by decide) rfl).trans ?_
      exact exists_congr fun n => and_congr_right fun _ => and_congr_right fun _ => hle
  | u16 =>
      refine (cfIsIntType_const hf (.inl rfl) (by decide) rfl).trans ?_
      exact exists_congr fun n => and_congr_right fun _ => and_congr_right fun _ => hle
  | u32 =>
      refine (cfIsIntType_const hf (.inl rfl) (by decide) rfl).trans ?_
      exact exists_congr fun n => and_congr_right fun _ => and_congr_right fun _ => hle
  | u64 =>
      refine (cfIsIntType_const hf (.inl rfl) (by decide) rfl).trans ?_
      exact exists_congr fun n => and_congr_right fun _ => and_congr_right fun _ => hle

theorem RangeTest.run_iff (q : RangeTest) {f : CFloat} (hf : f.Normal) :
    q.run f = true ↔ ∃ n : ℤ, f.val = n ∧ ∃ t ∈ q.types, t.Accepts n := by
  rw [q.run_eq, List.any_eq_true]
  constructor
  · rintro ⟨t, ht, htest⟩
    obtain ⟨n, hn, hacc⟩ := (t.test_iff hf).mp htest
    exact ⟨n, hn, t, ht, hacc⟩
  · rintro ⟨n, hn, t, ht, hacc⟩
    exact ⟨t, ht, (t.test_iff hf).mpr ⟨n, hn, hacc⟩⟩

theorem IntType.Has.accepts {t : IntType} {n : ℤ} (h : t.Has n) : t.Accepts n := by
  unfold Accepts
  split_ifs with ht
  · subst ht
    unfold Has at h
    norm_num [signed, bits] at h
    omega
  · exact h

/-- What a test finds and the integers of its types differ where the limit of `CFIsI64` decides. -/
theorem RangeTest.accepts_iff (q : RangeTest) (n : ℤ) :
    ((∃ t ∈ q.types, t.Accepts n) ↔ ∃ t ∈ q.types, t.Has n) ↔ ¬ q.Misses n := by
  have hi64 : IntType.i64.Has n ↔ -2 ^ 63 ≤ n ∧ n < 2 ^ 63 := Iff.rfl
  have hu64 : IntType.u64.Has n ↔ 0 ≤ n ∧ n < 2 ^ 64 := Iff.rfl
  constructor
  · rintro h ⟨hmem, hgap⟩
    obtain ⟨t, ht, hhas⟩ := h.mp ⟨.i64, hmem, by
      unfold IntType.Accepts
      rw [if_pos rfl]
      omega⟩
    obtain rfl | rfl := eq_of_mem_types hmem ht
    · rw [hi64] at hhas
      omega
    · rw [hu64] at hhas
      obtain hgap | hgap := hgap
      · omega
      · exact hgap.1 ht
  · intro hmiss
    refine ⟨?_, fun ⟨t, ht, hhas⟩ => ⟨t, ht, hhas.accepts⟩⟩
    rintro ⟨t, ht, hacc⟩
    unfold IntType.Accepts at hacc
    split_ifs at hacc with h64
    · subst h64
      by_cases hu : .u64 ∈ q.types
      · by_cases hneg : n < 0
        · refine ⟨.i64, ht, hi64.mpr ⟨?_, by omega⟩⟩
          by_contra hlow
          exact hmiss ⟨ht, .inl ⟨hacc.1, not_le.mp hlow⟩⟩
        · exact ⟨.u64, hu, hu64.mpr ⟨by omega, by omega⟩⟩
      · refine ⟨.i64, ht, hi64.mpr ⟨?_, ?_⟩⟩
        · by_contra hlow
          exact hmiss ⟨ht, .inl ⟨hacc.1, not_le.mp hlow⟩⟩
        · by_contra hhigh
          exact hmiss ⟨ht, .inr ⟨hu, not_lt.mp hhigh, hacc.2⟩⟩
    · exact ⟨t, ht, hacc⟩

/-- A test finds the integers of its types exactly, but for those that only the limit of `CFIsI64` lets in. -/
theorem rangeTest_exact_iff {f : CFloat} (hf : f.Normal) (q : RangeTest) :
    (q.run f = true ↔ q.Holds f) ↔ ∀ n : ℤ, f.val = n → ¬ q.Misses n := by
  rw [q.run_iff hf]
  unfold RangeTest.Holds
  constructor
  · intro h n hn
    rw [← q.accepts_iff n]
    constructor
    · rintro hacc
      obtain ⟨m, hm, hhas⟩ := h.mp ⟨n, hn, hacc⟩
      rwa [Int.cast_injective (hn.symm.trans hm)]
    · exact fun ⟨t, ht, hhas⟩ => ⟨t, ht, hhas.accepts⟩
  · intro h
    exact exists_congr fun n => and_congr_right fun hn => (q.accepts_iff n).mpr (h n hn)

theorem rangeTest_exact_five :
    CFloat.Normal ⟨1, 1, [5]⟩ ∧ ((RangeTest.is64.run ⟨1, 1, [5]⟩ = true ↔ RangeTest.is64.Holds ⟨1, 1, [5]⟩) ↔
      ∀ n : ℤ, CFloat.val ⟨1, 1, [5]⟩ = n → ¬ RangeTest.is64.Misses n) := by
  have h : CFloat.Normal ⟨1, 1, [5]⟩ := .inr ⟨.inl rfl, (by decide : Trimmed [5])⟩
  exact ⟨h, rangeTest_exact_iff h .is64⟩

/-- `CFIsI64` takes `2 ^ 63`. -/
theorem not_rangeTest_exact : ¬ ∀ (f : CFloat) (q : RangeTest), f.Normal → (q.run f = true ↔ q.Holds f) := by
  intro h
  have hnormal : CFloat.Normal ⟨19, 1, [9, 2, 2, 3, 3, 7, 2, 0, 3, 6, 8, 5, 4, 7, 7, 5, 8, 0, 8]⟩ :=
    .inr ⟨.inl rfl, by decide⟩
  obtain ⟨n, hn, t, ht, hhas⟩ := (h _ (.isType .i64) hnormal).mp (by decide)
  have hval : CFloat.val ⟨19, 1, [9, 2, 2, 3, 3, 7, 2, 0, 3, 6, 8, 5, 4, 7, 7, 5, 8, 0, 8]⟩ = (2 ^ 63 : ℤ) := by
    unfold CFloat.val
    rw [CFloat.mag_of_exp rfl]
    norm_num [decVal, Nat.ofDigits]
  obtain rfl := List.mem_singleton.mp ht
  rw [Int.cast_injective (hn.symm.trans hval)] at hhas
  exact absurd hhas (by decide)

end OpenWatcom.Cfloat
