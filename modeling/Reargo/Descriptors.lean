import Mathlib.Tactic

/-!
# Type descriptors of class files

The types a descriptor names, printed in source form. A descriptor is read exactly when it is
written by the grammar, and then as the types it was written from.
-/
namespace Descriptors

open List

abbrev Text := List Char

def baseName (c : Char) : Option Text :=
  match c with
  | 'B' => some "byte".toList
  | 'C' => some "char".toList
  | 'D' => some "double".toList
  | 'F' => some "float".toList
  | 'I' => some "int".toList
  | 'J' => some "long".toList
  | 'S' => some "short".toList
  | 'Z' => some "boolean".toList
  | 'V' => some "void".toList
  | _ => none

def stripDims : Text → ℕ × Text
  | '[' :: s => ((stripDims s).1 + 1, (stripDims s).2)
  | s => (0, s)

/-- The text before the first semicolon and the text after it. -/
def cutName : Text → Option (Text × Text)
  | [] => none
  | c :: s => if c = ';' then some ([], s) else (cutName s).map fun p => (c :: p.1, p.2)

def parseBase : Text → Option (Text × Text)
  | [] => none
  | c :: s =>
    if c = 'L' then (cutName s).map fun p => (p.1.map fun c => if c = '/' then '.' else c, p.2)
    else (baseName c).map fun name => (name, s)

/-- The source form of one type, and the text after it. -/
def parseType (s : Text) : Option (Text × Text) :=
  (parseBase (stripDims s).2).map fun p => (p.1 ++ (replicate (stripDims s).1 "[]".toList).flatten, p.2)

def fieldType (desc : Text) : Text :=
  match parseType desc with
  | some (t, []) => t
  | _ => desc

/-- The types up to the closing parenthesis; each takes a character at least. -/
def parseParams : ℕ → Text → Option (List Text × Text)
  | 0, _ => none
  | fuel + 1, s =>
    if s.head? = some ')' then some ([], s.drop 1)
    else do
      let (t, s) ← parseType s
      let (params, s) ← parseParams fuel s
      return (t :: params, s)

def methodTypes (desc : Text) : Option (List Text × Text) :=
  match desc with
  | '(' :: s => do
    let (params, s) ← parseParams (s.length + 1) s
    let (ret, s) ← parseType s
    if s = [] then some (params, ret) else none
  | _ => none

inductive Base where
  | primitive (c : Char) (name : Text) (h : baseName c = some name)
  | object (name : Text) (h : ';' ∉ name)

/-- A type as the grammar has it: a base in some dimensions. -/
structure JavaType where
  dims : ℕ
  base : Base

def Base.descriptor : Base → Text
  | primitive c _ _ => [c]
  | object name _ => 'L' :: name ++ [';']

def Base.source : Base → Text
  | primitive _ name _ => name
  | object name _ => name.map fun c => if c = '/' then '.' else c

def JavaType.descriptor (t : JavaType) : Text := replicate t.dims '[' ++ t.base.descriptor

def JavaType.source (t : JavaType) : Text :=
  t.base.source ++ (replicate t.dims "[]".toList).flatten

variable {s rest text : Text}

theorem cutName_iff {name : Text} :
    cutName s = some (name, rest) ↔ ';' ∉ name ∧ s = name ++ ';' :: rest := by
  induction s generalizing name with
  | nil => simp [cutName]
  | cons c s ih =>
    rw [cutName]
    split
    · next h =>
      subst h
      cases name with
      | nil => simp
      | cons d name => simp +contextual [eq_comm]
    · next h =>
      rw [Option.map_eq_some_iff]
      constructor
      · rintro ⟨⟨name, rest⟩, hcut, heq⟩
        cases heq
        obtain ⟨hname, rfl⟩ := ih.mp hcut
        exact ⟨by simp [hname, Ne.symm h], rfl⟩
      · rintro ⟨hname, heq⟩
        cases name with
        | nil => exact absurd (cons.inj heq).1 h
        | cons d name =>
          obtain ⟨rfl, rfl⟩ := cons.inj heq
          exact ⟨(name, rest), ih.mpr ⟨fun hc => hname (mem_cons_of_mem _ hc), rfl⟩, rfl⟩

theorem baseName_ne (h : baseName c = some name) : c ≠ 'L' ∧ c ≠ '[' ∧ c ≠ ')' := by
  refine ⟨?_, ?_, ?_⟩ <;> rintro rfl <;> cases h

theorem parseBase_iff : parseBase s = some (text, rest) ↔
    ∃ b : Base, s = b.descriptor ++ rest ∧ text = b.source := by
  constructor
  · intro h
    cases s with
    | nil => cases h
    | cons c s =>
      rw [parseBase] at h
      split at h
      · next hc =>
        obtain ⟨⟨name, rest'⟩, hcut, heq⟩ := Option.map_eq_some_iff.mp h
        cases heq
        obtain ⟨hname, rfl⟩ := cutName_iff.mp hcut
        exact ⟨.object name hname, by simp [Base.descriptor, hc], rfl⟩
      · obtain ⟨name, hname, heq⟩ := Option.map_eq_some_iff.mp h
        cases heq
        exact ⟨.primitive c _ hname, rfl, rfl⟩
  · rintro ⟨b, rfl, rfl⟩
    cases b with
    | primitive c name h =>
      rw [Base.descriptor, singleton_append, parseBase, if_neg (baseName_ne h).1, h]
      rfl
    | object name h =>
      have hcut : cutName (name ++ ';' :: rest) = some (name, rest) := cutName_iff.mpr ⟨h, rfl⟩
      simp [Base.descriptor, parseBase, hcut, Base.source]

theorem head_descriptor (b : Base) : ∃ c l, b.descriptor = c :: l ∧ c ≠ '[' ∧ c ≠ ')' := by
  cases b with
  | primitive c name h => exact ⟨c, [], rfl, (baseName_ne h).2⟩
  | object name h => exact ⟨'L', name ++ [';'], rfl, by decide, by decide⟩

theorem stripDims_spec (s : Text) : s = replicate (stripDims s).1 '[' ++ (stripDims s).2 := by
  fun_induction stripDims s with
  | case1 s ih => rw [replicate_succ, cons_append, ← ih]
  | case2 s h => rfl

theorem stripDims_descriptor (d : ℕ) (b : Base) :
    stripDims (replicate d '[' ++ (b.descriptor ++ rest)) = (d, b.descriptor ++ rest) := by
  induction d with
  | zero =>
    obtain ⟨c, l, hb, hc, -⟩ := head_descriptor b
    rw [hb]
    unfold stripDims
    split
    · next heq => exact absurd (cons.inj heq).1 hc
    · rfl
  | succ d ih => rw [replicate_succ, cons_append, stripDims, ih]

theorem parseType_iff : parseType s = some (text, rest) ↔
    ∃ t : JavaType, s = t.descriptor ++ rest ∧ text = t.source := by
  rw [parseType, Option.map_eq_some_iff]
  constructor
  · rintro ⟨⟨name, rest'⟩, hbase, heq⟩
    cases heq
    obtain ⟨b, hb, rfl⟩ := parseBase_iff.mp hbase
    refine ⟨⟨(stripDims s).1, b⟩, ?_, rfl⟩
    rw [JavaType.descriptor, append_assoc, ← hb]
    exact stripDims_spec s
  · rintro ⟨⟨d, b⟩, rfl, rfl⟩
    rw [JavaType.descriptor, append_assoc, stripDims_descriptor]
    exact ⟨_, parseBase_iff.mpr ⟨b, rfl, rfl⟩, rfl⟩

theorem head_type (t : JavaType) : ∃ c l, t.descriptor = c :: l ∧ c ≠ ')' := by
  obtain ⟨c, l, hb, -, hc⟩ := head_descriptor t.base
  rw [JavaType.descriptor, hb]
  cases t.dims with
  | zero => exact ⟨c, l, rfl, hc⟩
  | succ d => exact ⟨'[', _, rfl, by decide⟩

theorem parseParams_iff {params : List Text} (fuel : ℕ) (hfuel : s.length < fuel) :
    parseParams fuel s = some (params, rest) ↔
      ∃ ts : List JavaType, s = ts.flatMap JavaType.descriptor ++ ')' :: rest ∧
        params = ts.map JavaType.source := by
  induction fuel generalizing s params with
  | zero => omega
  | succ fuel ih =>
    rw [parseParams]
    split
    · next hhead =>
      obtain ⟨s, rfl⟩ : ∃ s', s = ')' :: s' := by
        cases s with
        | nil => cases hhead
        | cons c s => exact ⟨s, by rw [Option.some.inj hhead]⟩
      constructor
      · rintro ⟨⟩
        exact ⟨[], rfl, rfl⟩
      · rintro ⟨ts, heq, rfl⟩
        cases ts with
        | nil => simpa using heq
        | cons t ts =>
          obtain ⟨c, l, ht, hc⟩ := head_type t
          rw [flatMap_cons, ht, cons_append, cons_append] at heq
          exact absurd (cons.inj heq).1.symm hc
    · next hhead =>
      constructor
      · intro h
        obtain ⟨⟨text, s'⟩, htype, h⟩ := Option.bind_eq_some_iff.mp h
        obtain ⟨⟨params', s''⟩, hrest, h⟩ := Option.bind_eq_some_iff.mp h
        cases h
        obtain ⟨t, rfl, rfl⟩ := parseType_iff.mp htype
        obtain ⟨c, l, ht, -⟩ := head_type t
        obtain ⟨ts, rfl, rfl⟩ := (ih (by simp [ht] at hfuel; omega)).mp hrest
        exact ⟨t :: ts, by rw [flatMap_cons, append_assoc], rfl⟩
      · rintro ⟨ts, rfl, rfl⟩
        cases ts with
        | nil => exact absurd rfl hhead
        | cons t ts =>
          obtain ⟨c, l, ht, -⟩ := head_type t
          rw [flatMap_cons, append_assoc] at hfuel ⊢
          have hrest := (ih (s := ts.flatMap JavaType.descriptor ++ ')' :: rest)
            (by simp [ht] at hfuel ⊢; omega)).mpr ⟨ts, rfl, rfl⟩
          rw [parseType_iff.mpr ⟨t, rfl, rfl⟩]
          simp only [Option.bind_eq_bind, Option.bind_some, hrest]
          rfl

theorem methodTypes_iff (desc : Text) (params : List Text) (ret : Text) :
    methodTypes desc = some (params, ret) ↔ ∃ (ts : List JavaType) (t : JavaType),
      desc = '(' :: (ts.flatMap JavaType.descriptor ++ ')' :: t.descriptor) ∧
        params = ts.map JavaType.source ∧ ret = t.source := by
  constructor
  · intro h
    unfold methodTypes at h
    split at h
    · next s =>
      obtain ⟨⟨params', s'⟩, hparams, h⟩ := Option.bind_eq_some_iff.mp h
      obtain ⟨⟨text, s''⟩, htype, h⟩ := Option.bind_eq_some_iff.mp h
      simp only at h
      split_ifs at h with hend
      cases h
      obtain ⟨ts, rfl, rfl⟩ := (parseParams_iff _ (Nat.lt_succ_self _)).mp hparams
      obtain ⟨t, rfl, rfl⟩ := parseType_iff.mp htype
      exact ⟨ts, t, by rw [hend, append_nil], rfl, rfl⟩
    · cases h
  · rintro ⟨ts, t, rfl, rfl, rfl⟩
    rw [methodTypes, (parseParams_iff _ (Nat.lt_succ_self _)).mpr ⟨ts, rfl, rfl⟩]
    simp only [Option.bind_eq_bind, Option.bind_some]
    rw [parseType_iff.mpr ⟨t, (append_nil _).symm, rfl⟩]
    rfl

theorem fieldType_descriptor (t : JavaType) : fieldType t.descriptor = t.source := by
  rw [fieldType, parseType_iff.mpr ⟨t, (append_nil _).symm, rfl⟩]

/-- A method descriptor is read exactly when the grammar has it, as the types it is written from;
a field's type is printed, and a text that is none is left as it is. -/
theorem descriptors_read (desc : Text) :
    (∀ params ret, methodTypes desc = some (params, ret) ↔ ∃ (ts : List JavaType) (t : JavaType),
      desc = '(' :: (ts.flatMap JavaType.descriptor ++ ')' :: t.descriptor) ∧
        params = ts.map JavaType.source ∧ ret = t.source) ∧
      (∀ t : JavaType, desc = t.descriptor → fieldType desc = t.source) ∧
        ((∀ t : JavaType, desc ≠ t.descriptor) → fieldType desc = desc) := by
  refine ⟨methodTypes_iff desc, fun t h => h ▸ fieldType_descriptor t, fun hnone => ?_⟩
  unfold fieldType
  split
  · next text htype =>
    obtain ⟨t, ht, -⟩ := parseType_iff.mp htype
    exact absurd (ht.trans (append_nil _)) (hnone t)
  · rfl

example : methodTypes "([[ILjava/lang/String;)V".toList =
    some (["int[][]".toList, "java.lang.String".toList], "void".toList) := by decide

end Descriptors
