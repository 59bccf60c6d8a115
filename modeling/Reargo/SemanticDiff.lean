import Reargo.PcodeModel

/-!
# Matching the functions of two programs

Functions are paired by name first and by the hash of their body second. The hashes are
parameters; an entry of the report names the functions it is about by their addresses and
names.
-/
namespace SemanticDiff

open PcodeModel List Option

structure Hashed where
  addr : U64
  name : String
  structural : U64
  exact : U64
  deriving DecidableEq, Repr

inductive FunctionDiffKind where
  | identical | renamed | tweaked | modified | removed | added
  deriving DecidableEq, Repr

structure FunctionDiff where
  nameA : Option String
  nameB : Option String
  addrA : Option U64
  addrB : Option U64
  kind : FunctionDiffKind
  deriving DecidableEq, Repr

def hashedEntries (funcs : List (U64 × String)) (hash : U64 → Option (U64 × U64)) : List Hashed :=
  funcs.filterMap fun f => (hash f.1).map fun h => ⟨f.1, f.2, h.1, h.2⟩

/-- What a map collected from the entries holds under a key: the last entry that has it. -/
def lastWith (p : Hashed → Bool) (entries : List Hashed) : Option Hashed := entries.reverse.find? p

def bByName (bs : List Hashed) (name : String) : Option Hashed := lastWith (·.name = name) bs
def bByExact (bs : List Hashed) (exact : U64) : Option Hashed := lastWith (·.exact = exact) bs

/-- The report so far and the functions of the second program it has used. -/
structure Matches where
  out : List FunctionDiff
  matchedB : List String

def sameNameKind (a b : Hashed) : FunctionDiffKind :=
  if a.exact = b.exact then .identical
  else if a.structural = b.structural then .tweaked
  else .modified

/-- One function of the first program. -/
def compareOne (bs : List Hashed) (m : Matches) (a : Hashed) : Matches :=
  match bByName bs a.name with
  | some b =>
    ⟨m.out ++ [⟨some a.name, none, some a.addr, some b.addr, sameNameKind a b⟩],
      a.name :: m.matchedB⟩
  | none =>
    match bByExact bs a.exact with
    | some b =>
      ⟨m.out ++ [⟨some a.name, some b.name, some a.addr, some b.addr, .renamed⟩],
        b.name :: m.matchedB⟩
    | none => ⟨m.out ++ [⟨some a.name, none, some a.addr, none, .removed⟩], m.matchedB⟩

/-- One function of the second program. -/
def addOne (matchedB : List String) (out : List FunctionDiff) (b : Hashed) : List FunctionDiff :=
  if b.name ∈ matchedB then out else out ++ [⟨none, some b.name, none, some b.addr, .added⟩]

def comparePrograms (funcsA funcsB : List (U64 × String))
    (hashA hashB : U64 → Option (U64 × U64)) : List FunctionDiff :=
  let aEntries := hashedEntries funcsA hashA
  let bEntries := hashedEntries funcsB hashB
  let m := aEntries.foldl (compareOne bEntries) ⟨[], []⟩
  bEntries.foldl (addOne m.matchedB) m.out

namespace FunctionDiff

/-- The name of the entry's function in the first program. -/
def sideA (d : FunctionDiff) : Option String := d.addrA.bind fun _ => d.nameA

/-- The name of its function in the second one, left out when it is the same. -/
def sideB (d : FunctionDiff) : Option String := d.addrB.bind fun _ => d.nameB.or d.nameA

end FunctionDiff

/-- A report that is a one-to-one matching. -/
structure OneToOne (as bs : List Hashed) (out : List FunctionDiff) : Prop where
  onceA : ∀ a ∈ as, out.countP (fun d => d.sideA = some a.name) = 1
  onceB : ∀ b ∈ bs, out.countP (fun d => d.sideB = some b.name) = 1
  ofA : ∀ d ∈ out, ∀ n, d.sideA = some n → ∃ a ∈ as, a.name = n ∧ d.addrA = some a.addr
  ofB : ∀ d ∈ out, ∀ n, d.sideB = some n → ∃ b ∈ bs, b.name = n ∧ d.addrB = some b.addr
  sameName : ∀ d ∈ out, ∀ a ∈ as, ∀ b ∈ bs, d.sideA = some a.name → d.sideB = some b.name →
    a.name = b.name → d.kind = sameNameKind a b
  otherName : ∀ d ∈ out, ∀ a ∈ as, ∀ b ∈ bs, d.sideA = some a.name → d.sideB = some b.name →
    a.name ≠ b.name → d.kind = .renamed ∧ a.exact = b.exact
  oneSide : ∀ d ∈ out, (d.sideA = none ↔ d.kind = .added) ∧ (d.sideB = none ↔ d.kind = .removed)
  noPairLeft : ∀ d ∈ out, ∀ e ∈ out, d.kind = .removed → e.kind = .added →
    ∀ a ∈ as, ∀ b ∈ bs, d.sideA = some a.name → e.sideB = some b.name → a.exact ≠ b.exact

/-- No function of the second program has the name. -/
def NoNamesake (bs : List Hashed) (a : Hashed) : Prop := ∀ b ∈ bs, b.name ≠ a.name

/-- Of the functions paired by hash, no two share one, and none takes a namesake's partner. -/
structure ClaimedOnce (as bs : List Hashed) : Prop where
  alone : ∀ a ∈ as, ∀ a' ∈ as, NoNamesake bs a → NoNamesake bs a' → a.exact = a'.exact →
    (∃ b ∈ bs, b.exact = a.exact) → a = a'
  free : ∀ a ∈ as, NoNamesake bs a → ∀ b, lastWith (·.exact = a.exact) bs = some b →
    ∀ a' ∈ as, a'.name ≠ b.name

section Report

variable {as bs : List Hashed} {a b : Hashed}

theorem lastWith_some {p : Hashed → Bool} (h : lastWith p bs = some b) : b ∈ bs ∧ p b = true :=
  ⟨mem_reverse.mp (mem_of_find?_eq_some h), find?_some h⟩

theorem lastWith_none {p : Hashed → Bool} : lastWith p bs = none ↔ ∀ b ∈ bs, p b = false := by
  simp [lastWith]

/-- The function of the second program that `a` is paired with. -/
def partner (bs : List Hashed) (a : Hashed) : Option Hashed :=
  (bByName bs a.name).or (bByExact bs a.exact)

/-- The entry about a function of the first program. -/
def entryOf (bs : List Hashed) (a : Hashed) : FunctionDiff :=
  match partner bs a with
  | some b =>
    if b.name = a.name then ⟨some a.name, none, some a.addr, some b.addr, sameNameKind a b⟩
    else ⟨some a.name, some b.name, some a.addr, some b.addr, .renamed⟩
  | none => ⟨some a.name, none, some a.addr, none, .removed⟩

def addedEntry (b : Hashed) : FunctionDiff := ⟨none, some b.name, none, some b.addr, .added⟩

theorem compareOne_eq (m : Matches) : compareOne bs m a =
      ⟨m.out ++ [entryOf bs a], ((partner bs a).map Hashed.name).toList ++ m.matchedB⟩ := by
  unfold compareOne entryOf partner
  cases hname : bByName bs a.name with
  | some b =>
    have hb := of_decide_eq_true (lastWith_some hname).2
    simp [hb]
  | none =>
    cases hexact : bByExact bs a.exact with
    | some b =>
      have hne : b.name ≠ a.name := by
        have hnone := lastWith_none.mp hname b (lastWith_some hexact).1
        simpa using hnone
      simp [hne]
    | none => simp

theorem foldl_compareOne (m : Matches) :
    (as.foldl (compareOne bs) m).out = m.out ++ as.map (entryOf bs) ∧
      ∀ n, n ∈ (as.foldl (compareOne bs) m).matchedB ↔
        n ∈ m.matchedB ∨ ∃ a ∈ as, (partner bs a).map Hashed.name = some n := by
  induction as generalizing m with
  | nil => simp
  | cons a as ih =>
    rw [foldl_cons, compareOne_eq]
    obtain ⟨hout, hmatched⟩ := ih
      ⟨m.out ++ [entryOf bs a], ((partner bs a).map Hashed.name).toList ++ m.matchedB⟩
    refine ⟨by simp [hout], fun n => ?_⟩
    rw [hmatched n]
    simp only [mem_append, mem_toList, mem_cons, exists_eq_or_imp]
    tauto

theorem foldl_addOne (matchedB : List String) (out : List FunctionDiff) :
    bs.foldl (addOne matchedB) out =
      out ++ (bs.filter fun b => b.name ∉ matchedB).map addedEntry := by
  induction bs generalizing out with
  | nil => simp
  | cons b bs ih =>
    rw [foldl_cons, ih, addOne]
    by_cases hb : b.name ∈ matchedB <;> simp [hb, addedEntry]

/-- A function of the second program that nothing is paired with. -/
def unclaimed (as bs : List Hashed) (b : Hashed) : Bool :=
  as.all fun a => (partner bs a).map Hashed.name ≠ some b.name

/-- Each function of the first program in order, then the others of the second. -/
theorem comparePrograms_eq (funcsA funcsB : List (U64 × String))
    (hashA hashB : U64 → Option (U64 × U64)) :
    comparePrograms funcsA funcsB hashA hashB =
      (hashedEntries funcsA hashA).map (entryOf (hashedEntries funcsB hashB)) ++
        ((hashedEntries funcsB hashB).filter
          (unclaimed (hashedEntries funcsA hashA) (hashedEntries funcsB hashB))).map addedEntry := by
  unfold comparePrograms
  dsimp only
  obtain ⟨hout, hmatched⟩ := @foldl_compareOne (hashedEntries funcsA hashA)
    (hashedEntries funcsB hashB) ⟨[], []⟩
  rw [foldl_addOne, hout, nil_append]
  congr 2
  refine filter_congr fun b _ => ?_
  rw [Bool.eq_iff_iff, decide_eq_true_eq, hmatched b.name]
  simp [unclaimed]

theorem names_hashedEntries (funcs : List (U64 × String)) (hash : U64 → Option (U64 × U64))
    (h : (funcs.map Prod.snd).Nodup) : ((hashedEntries funcs hash).map Hashed.name).Nodup := by
  refine h.sublist ?_
  unfold hashedEntries
  rw [map_filterMap]
  induction funcs with
  | nil => exact List.Sublist.refl _
  | cons f funcs ih =>
    cases hf : hash f.1 with
    | none =>
      simp only [filterMap_cons, hf, map_none, map_cons]
      exact (ih (List.Nodup.of_cons h)).cons _
    | some v =>
      simp only [filterMap_cons, hf, map_some, map_cons]
      exact (ih (List.Nodup.of_cons h)).cons_cons _

@[simp] theorem sideA_entryOf : (entryOf bs a).sideA = some a.name := by
  unfold entryOf FunctionDiff.sideA
  cases partner bs a with
  | none => rfl
  | some b => by_cases hb : b.name = a.name <;> simp [hb]

@[simp] theorem sideB_entryOf : (entryOf bs a).sideB = (partner bs a).map Hashed.name := by
  unfold entryOf FunctionDiff.sideB
  cases partner bs a with
  | none => rfl
  | some b => by_cases hb : b.name = a.name <;> simp [hb]

@[simp] theorem sideA_addedEntry : (addedEntry b).sideA = none := rfl
@[simp] theorem sideB_addedEntry : (addedEntry b).sideB = some b.name := rfl

theorem partner_eq_some (hbs : (bs.map Hashed.name).Nodup) :
    partner bs a = some b ↔ (b ∈ bs ∧ b.name = a.name) ∨
      (NoNamesake bs a ∧ bByExact bs a.exact = some b) := by
  unfold partner
  cases hname : bByName bs a.name with
  | some c =>
    obtain ⟨hc, hcname⟩ := lastWith_some hname
    replace hcname := of_decide_eq_true hcname
    rw [some_or, some.injEq]
    constructor
    · rintro rfl
      exact .inl ⟨hc, hcname⟩
    · rintro (⟨hb, hbname⟩ | ⟨hnone, -⟩)
      · exact inj_on_of_nodup_map hbs hc hb (hcname.trans hbname.symm)
      · exact absurd hcname (hnone c hc)
  | none =>
    have hnone : NoNamesake bs a := fun b hb => by
      simpa using lastWith_none.mp hname b hb
    rw [none_or]
    constructor
    · exact fun h => .inr ⟨hnone, h⟩
    · rintro (⟨hb, hbname⟩ | ⟨-, h⟩)
      · exact absurd hbname (hnone b hb)
      · exact h

theorem partner_mem (h : partner bs a = some b) : b ∈ bs := by
  rcases or_eq_some_iff.mp h with h | ⟨-, h⟩
  · exact (lastWith_some h).1
  · exact (lastWith_some h).1

theorem partner_none (h : partner bs a = none) : ∀ b ∈ bs, b.name ≠ a.name ∧ b.exact ≠ a.exact := by
  obtain ⟨hname, hexact⟩ := or_eq_none_iff.mp h
  intro b hb
  have h₁ := lastWith_none.mp hname b hb
  have h₂ := lastWith_none.mp hexact b hb
  exact ⟨by simpa using h₁, by simpa using h₂⟩

theorem countP_name (h : (bs.map Hashed.name).Nodup) (hb : b ∈ bs) (q : Hashed → Bool) :
    bs.countP (fun c => decide (c.name = b.name) && q c) = if q b then 1 else 0 := by
  induction bs with
  | nil => cases hb
  | cons c bs ih =>
    obtain ⟨hnew, htail⟩ := nodup_cons.mp h
    rw [countP_cons]
    rcases mem_cons.mp hb with rfl | hb
    · have hrest : bs.countP (fun c => decide (c.name = b.name) && q c) = 0 := by
        refine countP_eq_zero.mpr fun c hc => ?_
        have hne : c.name ≠ b.name := fun heq => hnew (heq ▸ mem_map_of_mem hc)
        simp [hne]
      simp [hrest]
    · have hne : c.name ≠ b.name := fun heq => hnew (heq ▸ mem_map_of_mem hb)
      simp [ih htail hb, hne]

theorem countP_le_one_iff (h : as.Nodup) (p : Hashed → Bool) :
    as.countP p ≤ 1 ↔ ∀ a ∈ as, ∀ a' ∈ as, p a = true → p a' = true → a = a' := by
  induction as with
  | nil => simp
  | cons c as ih =>
    obtain ⟨hnew, htail⟩ := nodup_cons.mp h
    rw [countP_cons]
    by_cases hc : p c = true
    · have hzero : as.countP p + 1 ≤ 1 ↔ as.countP p = 0 := by omega
      rw [if_pos hc, hzero, countP_eq_zero]
      constructor
      · intro hnone a ha a' ha' hpa hpa'
        rcases mem_cons.mp ha with rfl | ha
        · rcases mem_cons.mp ha' with rfl | ha'
          · rfl
          · exact absurd hpa' (hnone a' ha')
        · exact absurd hpa (hnone a ha)
      · intro heq a ha hpa
        obtain rfl := heq c mem_cons_self a (mem_cons_of_mem _ ha) hc hpa
        exact hnew ha
    · rw [if_neg hc, add_zero, ih htail]
      constructor
      · intro heq a ha a' ha' hpa hpa'
        rcases mem_cons.mp ha with rfl | ha
        · exact absurd hpa hc
        · rcases mem_cons.mp ha' with rfl | ha'
          · exact absurd hpa' hc
          · exact heq a ha a' ha' hpa hpa'
      · exact fun heq a ha a' ha' => heq a (mem_cons_of_mem _ ha) a' (mem_cons_of_mem _ ha')

/-- The report, as the entries of one program's functions and the rest of the other's. -/
def report (as bs : List Hashed) : List FunctionDiff :=
  as.map (entryOf bs) ++ (bs.filter (unclaimed as bs)).map addedEntry

theorem count_sideA (has : (as.map Hashed.name).Nodup) (ha : a ∈ as) :
    (report as bs).countP (fun d => d.sideA = some a.name) = 1 := by
  unfold report
  rw [countP_append, countP_map, countP_map]
  have hrest : (bs.filter (unclaimed as bs)).countP
      ((fun d : FunctionDiff => decide (d.sideA = some a.name)) ∘ addedEntry) = 0 :=
    countP_eq_zero.mpr fun b _ => by simp
  have hfirst := countP_name has ha fun _ => true
  simp only [Bool.and_true, if_true] at hfirst
  rw [hrest, add_zero, ← hfirst]
  refine countP_congr fun c _ => ?_
  simp

/-- The entries about a function of the second program: one for each that is paired with it,
and its own when there is none. -/
theorem count_sideB (hbs : (bs.map Hashed.name).Nodup) (hb : b ∈ bs) :
    (report as bs).countP (fun d => d.sideB = some b.name) = 1 ↔
      as.countP (fun a => partner bs a = some b) ≤ 1 := by
  have hpartner : ∀ a, (partner bs a).map Hashed.name = some b.name ↔ partner bs a = some b := by
    intro a
    rw [map_eq_some_iff]
    constructor
    · rintro ⟨c, hc, hname⟩
      rwa [← inj_on_of_nodup_map hbs (partner_mem hc) hb hname]
    · exact fun h => ⟨b, h, rfl⟩
  have hclaim : as.countP ((fun d : FunctionDiff => decide (d.sideB = some b.name)) ∘ entryOf bs) =
      as.countP (fun a => partner bs a = some b) := by
    refine countP_congr fun a _ => ?_
    simp [hpartner a]
  have hrest : (bs.filter (unclaimed as bs)).countP
      ((fun d : FunctionDiff => decide (d.sideB = some b.name)) ∘ addedEntry) =
        if unclaimed as bs b then 1 else 0 := by
    rw [← countP_name hbs hb (unclaimed as bs), countP_filter]
    refine countP_congr fun c _ => ?_
    simp
  have hfree : unclaimed as bs b = true ↔ as.countP (fun a => partner bs a = some b) = 0 := by
    unfold unclaimed
    simp [countP_eq_zero, hpartner]
  unfold report
  rw [countP_append, countP_map, countP_map, hclaim, hrest]
  by_cases hu : unclaimed as bs b = true
  · rw [if_pos hu, hfree.mp hu]
    simp
  · rw [if_neg hu]
    have := mt hfree.mpr hu
    omega

theorem claimedOnce_iff (has : (as.map Hashed.name).Nodup) (hbs : (bs.map Hashed.name).Nodup) :
    (∀ b ∈ bs, as.countP (fun a => partner bs a = some b) ≤ 1) ↔ ClaimedOnce as bs := by
  have hone : (∀ b ∈ bs, as.countP (fun a => partner bs a = some b) ≤ 1) ↔
      ∀ b ∈ bs, ∀ a ∈ as, ∀ a' ∈ as, partner bs a = some b → partner bs a' = some b → a = a' := by
    refine forall₂_congr fun b _ => ?_
    rw [countP_le_one_iff (List.Nodup.of_map _ has)]
    simp
  rw [hone]
  constructor
  · intro h
    constructor
    · intro a ha a' ha' hno hno' heq hb
      obtain ⟨c, hc⟩ : ∃ c, bByExact bs a.exact = some c := by
        rw [← ne_none_iff_exists']
        intro hnone
        obtain ⟨b, hb, hexact⟩ := hb
        have := lastWith_none.mp hnone b hb
        simp [hexact] at this
      have hpa := (partner_eq_some hbs).mpr (.inr ⟨hno, hc⟩)
      have hpa' := (partner_eq_some hbs).mpr (.inr ⟨hno', heq ▸ hc⟩)
      exact h c (partner_mem hpa) a ha a' ha' hpa hpa'
    · intro a ha hno b hb a' ha' hname
      have hpa := (partner_eq_some hbs).mpr (.inr ⟨hno, hb⟩)
      have hpa' := (partner_eq_some hbs).mpr (.inl ⟨partner_mem hpa, hname.symm⟩)
      obtain rfl := h b (partner_mem hpa) a ha a' ha' hpa hpa'
      exact hno b (partner_mem hpa) hname.symm
  · intro h b hb a ha a' ha' hpa hpa'
    rcases (partner_eq_some hbs).mp hpa with ⟨-, hname⟩ | ⟨hno, hlast⟩ <;>
      rcases (partner_eq_some hbs).mp hpa' with ⟨-, hname'⟩ | ⟨hno', hlast'⟩
    · exact inj_on_of_nodup_map has ha ha' (hname.symm.trans hname')
    · exact absurd hname.symm (h.free a' ha' hno' b hlast' a ha)
    · exact absurd hname'.symm (h.free a ha hno b hlast a' ha')
    · have heq : b.exact = a.exact := of_decide_eq_true (lastWith_some hlast).2
      have heq' : b.exact = a'.exact := of_decide_eq_true (lastWith_some hlast').2
      exact h.alone a ha a' ha' hno hno' (heq.symm.trans heq') ⟨b, hb, heq⟩

theorem kind_entryOf : (entryOf bs a).kind = match partner bs a with
    | some b => if b.name = a.name then sameNameKind a b else .renamed
    | none => .removed := by
  unfold entryOf
  cases partner bs a with
  | none => rfl
  | some b => by_cases hb : b.name = a.name <;> simp [hb]

theorem sameNameKind_ne : sameNameKind a b ≠ .added ∧ sameNameKind a b ≠ .removed := by
  unfold sameNameKind
  split
  · exact ⟨nofun, nofun⟩
  · split <;> exact ⟨nofun, nofun⟩

theorem mem_report {d : FunctionDiff} (h : d ∈ report as bs) :
    (∃ a ∈ as, d = entryOf bs a) ∨ ∃ b ∈ bs, d = addedEntry b := by
  rcases mem_append.mp h with h | h
  · obtain ⟨a, ha, rfl⟩ := mem_map.mp h
    exact .inl ⟨a, ha, rfl⟩
  · obtain ⟨b, hb, rfl⟩ := mem_map.mp h
    exact .inr ⟨b, (mem_filter.mp hb).1, rfl⟩

theorem both_sides (has : (as.map Hashed.name).Nodup) (hbs : (bs.map Hashed.name).Nodup)
    {d : FunctionDiff} (hd : d ∈ report as bs) (ha : a ∈ as) (hb : b ∈ bs)
    (hsideA : d.sideA = some a.name) (hsideB : d.sideB = some b.name) :
    d = entryOf bs a ∧ partner bs a = some b := by
  rcases mem_report hd with ⟨c, hc, rfl⟩ | ⟨c, -, rfl⟩
  · rw [sideA_entryOf, some.injEq] at hsideA
    obtain rfl := inj_on_of_nodup_map has hc ha hsideA
    rw [sideB_entryOf] at hsideB
    obtain ⟨b', hb', hname⟩ := map_eq_some_iff.mp hsideB
    rw [inj_on_of_nodup_map hbs (partner_mem hb') hb hname] at hb'
    exact ⟨rfl, hb'⟩
  · cases hsideA

theorem oneToOne_iff (has : (as.map Hashed.name).Nodup) (hbs : (bs.map Hashed.name).Nodup) :
    OneToOne as bs (report as bs) ↔ ClaimedOnce as bs := by
  rw [← claimedOnce_iff has hbs]
  constructor
  · exact fun h b hb => (count_sideB hbs hb).mp (h.onceB b hb)
  · intro h
    constructor
    · exact fun a ha => count_sideA has ha
    · exact fun b hb => (count_sideB hbs hb).mpr (h b hb)
    · intro d hd n hn
      rcases mem_report hd with ⟨a, ha, rfl⟩ | ⟨b, -, rfl⟩
      · rw [sideA_entryOf, some.injEq] at hn
        refine ⟨a, ha, hn, ?_⟩
        unfold entryOf
        split
        · split <;> rfl
        · rfl
      · cases hn
    · intro d hd n hn
      rcases mem_report hd with ⟨a, -, rfl⟩ | ⟨b, hb, rfl⟩
      · rw [sideB_entryOf] at hn
        obtain ⟨b, hb, hname⟩ := map_eq_some_iff.mp hn
        refine ⟨b, partner_mem hb, hname, ?_⟩
        unfold entryOf
        rw [hb]
        by_cases heq : b.name = a.name <;> simp [heq]
      · exact ⟨b, hb, some.inj hn, rfl⟩
    · intro d hd a ha b hb hsideA hsideB hname
      obtain ⟨rfl, hpartner⟩ := both_sides has hbs hd ha hb hsideA hsideB
      rw [kind_entryOf, hpartner]
      exact if_pos hname.symm
    · intro d hd a ha b hb hsideA hsideB hname
      obtain ⟨rfl, hpartner⟩ := both_sides has hbs hd ha hb hsideA hsideB
      rw [kind_entryOf, hpartner]
      refine ⟨if_neg (Ne.symm hname), ?_⟩
      rcases (partner_eq_some hbs).mp hpartner with ⟨-, hsame⟩ | ⟨-, hlast⟩
      · exact absurd hsame.symm hname
      · have hexact : b.exact = a.exact := of_decide_eq_true (lastWith_some hlast).2
        exact hexact.symm
    · intro d hd
      rcases mem_report hd with ⟨a, -, rfl⟩ | ⟨b, -, rfl⟩
      · rw [kind_entryOf, sideA_entryOf, sideB_entryOf]
        cases partner bs a with
        | none => simp
        | some b =>
          obtain ⟨hadded, hremoved⟩ := sameNameKind_ne (a := a) (b := b)
          by_cases heq : b.name = a.name <;> simp [heq, hadded, hremoved]
      · simp [addedEntry, FunctionDiff.sideA, FunctionDiff.sideB]
    · intro d hd e he hremoved hadded a ha b hb hsideA hsideB hexact
      rcases mem_report hd with ⟨c, hc, rfl⟩ | ⟨c, -, rfl⟩
      · rw [sideA_entryOf, some.injEq] at hsideA
        obtain rfl := inj_on_of_nodup_map has hc ha hsideA
        rw [kind_entryOf] at hremoved
        cases hpartner : partner bs c with
        | none => exact (partner_none hpartner b hb).2 hexact.symm
        | some b' =>
          rw [hpartner] at hremoved
          by_cases heq : b'.name = c.name
          · exact sameNameKind_ne.2 ((if_pos heq).symm.trans hremoved)
          · exact absurd ((if_neg heq).symm.trans hremoved) nofun
      · cases hremoved

end Report

/-- The report is a one-to-one matching exactly when no function of the second program is
claimed twice: by two functions paired with it by hash, or by one beside its namesake. -/
theorem comparePrograms_oneToOne_iff (funcsA funcsB : List (U64 × String))
    (hashA hashB : U64 → Option (U64 × U64)) (hA : (funcsA.map Prod.snd).Nodup)
    (hB : (funcsB.map Prod.snd).Nodup) :
    OneToOne (hashedEntries funcsA hashA) (hashedEntries funcsB hashB)
        (comparePrograms funcsA funcsB hashA hashB) ↔
      ClaimedOnce (hashedEntries funcsA hashA) (hashedEntries funcsB hashB) := by
  rw [comparePrograms_eq]
  exact oneToOne_iff (names_hashedEntries funcsA hashA hA) (names_hashedEntries funcsB hashB hB)

/-- Two functions; the second program below has the name of one on the body of the other. -/
def swappedNames : List (U64 × String) := [(0x10, "f"), (0x20, "g")]

def bodyHash (addr : U64) : Option (U64 × U64) := some (addr, addr)

theorem comparePrograms_oneToOne_same :
    OneToOne (hashedEntries swappedNames bodyHash) (hashedEntries swappedNames bodyHash)
      (comparePrograms swappedNames swappedNames bodyHash bodyHash) := by
  refine (comparePrograms_oneToOne_iff _ _ _ _ (by decide) (by decide)).mpr ⟨?_, ?_⟩
  · exact fun a ha _ _ hno => absurd rfl (hno a ha)
  · exact fun a ha hno => absurd rfl (hno a ha)

/-- The only function of the second program has the name of one and the hash of another. -/
theorem renamed_beside_namesake :
    ¬ ∀ funcsA funcsB hashA hashB, (funcsA.map Prod.snd).Nodup → (funcsB.map Prod.snd).Nodup →
      OneToOne (hashedEntries funcsA hashA) (hashedEntries funcsB hashB)
        (comparePrograms funcsA funcsB hashA hashB) := by
  intro h
  have honce := (h swappedNames [(0x10, "g")] bodyHash bodyHash (by decide) (by decide)).onceB
    ⟨0x10, "g", 0x10, 0x10⟩ (by decide)
  exact absurd honce (by decide)

end SemanticDiff
