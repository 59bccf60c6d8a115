import Reargo.OrderedMap
import Reargo.PcodeModel

/-!
# The symbol table

Symbols by address, in the order they are tried, and addresses by name. The two maps say the
same after any calls, and the name a user gives an address stays its first until the next one
or until its symbols are removed.
-/
namespace SymbolTables

open PcodeModel OrderedMap List Function

inductive SymbolType where
  | function | label | data | externalFunction | externalData
  deriving DecidableEq

inductive SourceType where
  | imported | analysis | userDefined | default
  deriving DecidableEq

structure Symbol where
  name : String
  address : U64
  symbolType : SymbolType
  source : SourceType
  deriving DecidableEq

abbrev SymbolsByAddress := OrdMap U64 (List Symbol)

/-- Only looked up, never listed. -/
abbrev SymbolsByName := String → Option (List U64)

def SymbolsByAddress.at (m : SymbolsByAddress) (a : U64) : List Symbol := (m.get? a).getD []

def SymbolsByAddress.push (m : SymbolsByAddress) (s : Symbol) : SymbolsByAddress :=
  m.insert s.address (m.at s.address ++ [s])

def SymbolsByName.push (m : SymbolsByName) (name : String) (a : U64) : SymbolsByName :=
  update m name (some ((m name).getD [] ++ [a]))

def SymbolsByName.drop (m : SymbolsByName) (a : U64) (name : String) : SymbolsByName :=
  match m name with
  | some as => update m name (some (as.filter (· ≠ a)))
  | none => m

structure SymbolTable where
  byAddress : SymbolsByAddress
  byName : SymbolsByName

namespace SymbolTable

def new : SymbolTable := ⟨.empty, fun _ => none⟩

def add (t : SymbolTable) (s : Symbol) : SymbolTable :=
  ⟨t.byAddress.push s, t.byName.push s.name s.address⟩

/-- Many symbols go into the two maps on two threads. -/
def addAll (t : SymbolTable) (symbols : List Symbol) : SymbolTable :=
  if symbols.length < 2 ^ 12 then symbols.foldl add t
  else
    let names := symbols.map fun s => (s.name, s.address)
    ⟨symbols.foldl .push t.byAddress, names.foldl (fun m n => m.push n.1 n.2) t.byName⟩

def getAt (t : SymbolTable) (a : U64) : List Symbol := t.byAddress.at a

def setPrimary (t : SymbolTable) (a : U64) (name : String) (ty : SymbolType) : SymbolTable :=
  ⟨t.byAddress.insert a (⟨name, a, ty, .userDefined⟩ :: t.getAt a), t.byName.push name a⟩

def removeAt (t : SymbolTable) (a : U64) : SymbolTable × ℕ :=
  match t.byAddress.get? a with
  | some syms => (⟨t.byAddress.filter fun k _ => k ≠ a,
      (syms.map Symbol.name).foldl (.drop · a) t.byName⟩, syms.length)
  | none => (t, 0)

def getByName (t : SymbolTable) (name : String) : Option (List U64) := t.byName name

def primaryAt (t : SymbolTable) (a : U64) : Option Symbol := (t.byAddress.get? a).bind head?

def iter (t : SymbolTable) : List Symbol := t.byAddress.values.flatten

def len (t : SymbolTable) : ℕ := (t.byAddress.values.map List.length).sum

def isEmpty (t : SymbolTable) : Bool := t.byAddress.entries.isEmpty

end SymbolTable

open SymbolTable

inductive Call where
  | add (s : Symbol)
  | addAll (symbols : List Symbol)
  | setPrimary (a : U64) (name : String) (ty : SymbolType)
  | removeAt (a : U64)

def Call.apply (t : SymbolTable) : Call → SymbolTable
  | add s => t.add s
  | addAll symbols => t.addAll symbols
  | setPrimary a name ty => t.setPrimary a name ty
  | removeAt a => (t.removeAt a).1

def run (calls : List Call) : SymbolTable := calls.foldl Call.apply .new

def named (name : String) (syms : List Symbol) : ℕ := syms.countP (·.name = name)

/-- An address stands under a name once for each symbol it has of that name. -/
structure Consistent (t : SymbolTable) : Prop where
  placed : ∀ a, ∀ s ∈ t.getAt a, s.address = a
  nonempty : ∀ a, t.byAddress.get? a ≠ some []
  names : ∀ name a, ((t.getByName name).getD []).count a = named name (t.getAt a)

variable {t : SymbolTable} {s : Symbol} {a b : U64} {name : String} {ty : SymbolType}

theorem count_push (m : SymbolsByName) (name' : String) :
    ((m.push name a name').getD []).count b =
      ((m name').getD []).count b + if name' = name ∧ b = a then 1 else 0 := by
  unfold SymbolsByName.push
  by_cases hname : name' = name
  · subst hname
    rw [update_self, Option.getD_some, count_append, count_singleton]
    by_cases hb : b = a
    · simp [hb]
    · simp [hb, Ne.symm hb]
  · rw [update_of_ne hname, if_neg fun h => hname h.1, add_zero]

theorem count_drop (m : SymbolsByName) (name' : String) :
    ((m.drop a name name').getD []).count b =
      if name' = name ∧ b = a then 0 else ((m name').getD []).count b := by
  unfold SymbolsByName.drop
  cases hm : m name with
  | none =>
    split
    · next h => simp [h.1, hm]
    · rfl
  | some as =>
    by_cases hname : name' = name
    · subst hname
      simp only [update_self, Option.getD_some, hm, true_and]
      split
      · next h => exact count_eq_zero.mpr fun hmem => by simp [h] at hmem
      · next h => exact count_filter (by simpa using h)
    · simp only [update_of_ne hname, hname, false_and, if_false]

theorem count_drops (names : List String) (m : SymbolsByName) (name : String) :
    ((names.foldl (.drop · a) m name).getD []).count b =
      if name ∈ names ∧ b = a then 0 else ((m name).getD []).count b := by
  induction names generalizing m with
  | nil => simp
  | cons n names ih =>
    rw [foldl_cons, ih, count_drop]
    by_cases hb : b = a
    · by_cases hn : name = n
      · simp [hb, hn]
      · simp [hb, hn, mem_cons]
    · simp [hb]

/-- One symbol more, in front or at the end, in both maps. -/
theorem Consistent.insert {t' : SymbolTable} (h : Consistent t) {syms : List Symbol}
    (hperm : syms.Perm (s :: t.getAt s.address))
    (ht : t' = ⟨t.byAddress.insert s.address syms, t.byName.push s.name s.address⟩) :
    Consistent t' := by
  subst ht
  have hat (a : U64) : getAt ⟨t.byAddress.insert s.address syms, t.byName.push s.name s.address⟩ a =
      if a = s.address then syms else t.getAt a := by
    unfold getAt SymbolsByAddress.at
    rw [OrdMap.get?_insert]
    split <;> rfl
  refine ⟨fun a x hx => ?_, fun a => ?_, fun name a => ?_⟩
  · rw [hat] at hx
    split at hx
    · next ha =>
      rcases mem_cons.mp (hperm.mem_iff.mp hx) with rfl | hx
      · exact ha.symm
      · exact ha ▸ h.placed _ x hx
    · exact h.placed a x hx
  · rw [OrdMap.get?_insert]
    split
    · intro hnil
      rw [Option.some.inj hnil] at hperm
      exact absurd hperm.symm.eq_nil (cons_ne_nil _ _)
    · exact h.nonempty a
  · rw [hat]
    have hcount : ((t.byName.push s.name s.address name).getD []).count a = _ :=
      count_push t.byName name
    rw [getByName, hcount]
    have hnames := h.names name a
    rw [getByName] at hnames
    rw [hnames]
    by_cases ha : a = s.address
    · subst ha
      rw [if_pos rfl, named, named, hperm.countP_eq, countP_cons]
      by_cases hn : name = s.name
      · simp [hn]
      · simp [hn, Ne.symm hn]
    · rw [if_neg ha, if_neg fun hc => ha hc.2, add_zero]

theorem Consistent.add (h : Consistent t) (s : Symbol) : Consistent (t.add s) :=
  h.insert perm_append_comm rfl

theorem Consistent.setPrimary (h : Consistent t) : Consistent (t.setPrimary a name ty) :=
  h.insert (s := ⟨name, a, ty, .userDefined⟩) (Perm.refl _) rfl

theorem get?_removeAt (t : SymbolTable) (a b : U64) :
    (t.removeAt a).1.byAddress.get? b = if b = a then none else t.byAddress.get? b := by
  unfold removeAt
  cases ha : t.byAddress.get? a with
  | none =>
    by_cases hb : b = a
    · rw [if_pos hb, hb, ha]
    · rw [if_neg hb]
  | some syms =>
    simp only [OrdMap.get?_filter]
    by_cases hb : b = a
    · simp [hb]
    · cases t.byAddress.get? b <;> simp [hb]

theorem getAt_removeAt (t : SymbolTable) (a b : U64) :
    (t.removeAt a).1.getAt b = if b = a then [] else t.getAt b := by
  rw [getAt, SymbolsByAddress.at, get?_removeAt]
  split <;> rfl

theorem Consistent.removeAt (h : Consistent t) : Consistent (t.removeAt a).1 := by
  refine ⟨fun b x hx => ?_, fun b hb => ?_, fun name b => ?_⟩
  · rw [getAt_removeAt] at hx
    split at hx
    · cases hx
    · exact h.placed b x hx
  · rw [get?_removeAt] at hb
    split at hb
    · cases hb
    · exact h.nonempty b hb
  · have hnames := h.names name b
    rw [getAt_removeAt]
    unfold getByName SymbolTable.removeAt at *
    cases ha : t.byAddress.get? a with
    | none =>
      simp only
      rw [hnames]
      split
      · next hb => rw [hb, getAt, SymbolsByAddress.at, ha, Option.getD_none]
      · rfl
    | some syms =>
      simp only
      rw [count_drops, hnames]
      have hsyms : t.getAt a = syms := by rw [getAt, SymbolsByAddress.at, ha, Option.getD_some]
      by_cases hb : b = a
      · subst hb
        by_cases hmem : name ∈ syms.map Symbol.name
        · rw [if_pos ⟨hmem, rfl⟩, if_pos rfl, named, countP_nil]
        · rw [if_neg fun hc => hmem hc.1, if_pos rfl, hsyms, named, named, countP_nil]
          exact countP_eq_zero.mpr fun x hx hxn => hmem (mem_map.mpr ⟨x, hx, of_decide_eq_true hxn⟩)
      · rw [if_neg fun hc => hb hc.2, if_neg hb]

/-- Filling the two maps apart gives what adding in turn gives. -/
theorem addAll_eq (t : SymbolTable) (symbols : List Symbol) :
    t.addAll symbols = symbols.foldl SymbolTable.add t := by
  unfold addAll
  split
  · rfl
  · clear * -
    simp only [foldl_map]
    induction symbols generalizing t with
    | nil => rfl
    | cons s symbols ih =>
      simp only [foldl_cons]
      exact ih (t.add s)

theorem Consistent.addAll (h : Consistent t) (symbols : List Symbol) :
    Consistent (t.addAll symbols) := by
  rw [addAll_eq]
  induction symbols generalizing t with
  | nil => exact h
  | cons s symbols ih => exact ih (h.add s)

theorem Consistent.apply (h : Consistent t) (c : Call) : Consistent (c.apply t) := by
  cases c with
  | add s => exact h.add s
  | addAll symbols => exact h.addAll symbols
  | setPrimary a name ty => exact h.setPrimary
  | removeAt a => exact h.removeAt

theorem consistent_run (calls : List Call) : Consistent (run calls) := by
  unfold run
  have hnew : Consistent .new :=
    ⟨fun _ _ hs => absurd hs not_mem_nil, fun _ h => Option.some_ne_none _ h.symm, fun _ _ => rfl⟩
  generalize SymbolTable.new = t at hnew
  induction calls generalizing t with
  | nil => exact hnew
  | cons c calls ih => exact ih _ (hnew.apply c)

theorem mem_iter (h : Consistent t) : s ∈ t.iter ↔ s ∈ t.getAt s.address := by
  unfold SymbolTable.iter getAt SymbolsByAddress.at
  simp only [mem_flatten, OrdMap.values, mem_map, Prod.exists, exists_eq_right]
  constructor
  · rintro ⟨syms, ⟨a, hmem⟩, hs⟩
    have hget := OrdMap.get?_eq_some_iff.mpr hmem
    obtain rfl := h.placed a s (by rwa [getAt, SymbolsByAddress.at, hget, Option.getD_some])
    rwa [hget, Option.getD_some]
  · intro hs
    cases hget : t.byAddress.get? s.address with
    | none =>
      rw [hget] at hs
      cases hs
    | some syms =>
      rw [hget] at hs
      exact ⟨syms, ⟨_, OrdMap.get?_eq_some_iff.mp hget⟩, hs⟩

theorem isEmpty_iff (h : Consistent t) : t.isEmpty = true ↔ t.len = 0 := by
  unfold SymbolTable.isEmpty len OrdMap.values
  rw [List.isEmpty_iff, sum_eq_zero_iff]
  constructor
  · intro hnil
    simp [hnil]
  · intro hzero
    rw [eq_nil_iff_forall_not_mem]
    rintro ⟨a, syms⟩ hmem
    have hnil := hzero syms.length (mem_map.mpr ⟨syms, mem_map.mpr ⟨_, hmem, rfl⟩, rfl⟩)
    rw [length_eq_zero_iff.mp hnil] at hmem
    exact h.nonempty a (OrdMap.get?_eq_some_iff.mpr hmem)

/-- After any calls a name lists an address as often as the address has a symbol of that name,
every symbol is listed at its address only, and a table is empty when it has no symbol. -/
theorem maps_agree (calls : List Call) :
    (∀ name a, (((run calls).getByName name).getD []).count a =
        ((run calls).getAt a).countP (·.name = name)) ∧
      (∀ s a, s ∈ (run calls).getAt a ↔ s ∈ (run calls).iter ∧ s.address = a) ∧
        ((run calls).isEmpty = true ↔ (run calls).len = 0) := by
  have h := consistent_run calls
  refine ⟨h.names, fun s a => ⟨fun hs => ?_, fun hs => ?_⟩, isEmpty_iff h⟩
  · obtain rfl := h.placed a s hs
    exact ⟨(mem_iter h).mpr hs, rfl⟩
  · exact hs.2 ▸ (mem_iter h).mp hs.1

/-- A call that renames or clears an address. -/
def Call.Overrides (a : U64) : Call → Prop
  | setPrimary b _ _ => b = a
  | removeAt b => b = a
  | _ => False

theorem primaryAt_eq (t : SymbolTable) (a : U64) : t.primaryAt a = (t.getAt a).head? := by
  unfold primaryAt getAt SymbolsByAddress.at
  cases t.byAddress.get? a <;> rfl

theorem getAt_add (t : SymbolTable) (s : Symbol) (a : U64) :
    (t.add s).getAt a = if a = s.address then t.getAt a ++ [s] else t.getAt a := by
  unfold getAt SymbolsByAddress.at SymbolTable.add SymbolsByAddress.push
  rw [OrdMap.get?_insert]
  split
  · next h =>
    subst h
    rfl
  · rfl

theorem primaryAt_add (h : t.primaryAt a = some s) (s' : Symbol) : (t.add s').primaryAt a = some s := by
  rw [primaryAt_eq] at h ⊢
  rw [getAt_add]
  split
  · rw [head?_append, h, Option.some_or]
  · exact h

theorem primaryAt_apply (h : t.primaryAt a = some s) {c : Call} (hc : ¬ c.Overrides a) :
    (c.apply t).primaryAt a = some s := by
  cases c with
  | add s' => exact primaryAt_add h s'
  | addAll symbols =>
    rw [Call.apply, addAll_eq]
    clear hc
    induction symbols generalizing t with
    | nil => exact h
    | cons s' symbols ih => exact ih (primaryAt_add h s')
  | setPrimary b name ty =>
    rw [primaryAt_eq] at h ⊢
    rw [Call.apply, SymbolTable.setPrimary, getAt, SymbolsByAddress.at, OrdMap.get?_insert,
      if_neg (Ne.symm hc)]
    exact h
  | removeAt b =>
    rw [primaryAt_eq] at h ⊢
    rw [Call.apply, getAt_removeAt, if_neg (Ne.symm hc)]
    exact h

/-- The name a user gives an address is its first until the user names it again or removes it. -/
theorem user_name_stays_primary (before after : List Call) (a : U64) (name : String) (ty : SymbolType)
    (hafter : ∀ c ∈ after, ¬ c.Overrides a) :
    (run (before ++ .setPrimary a name ty :: after)).primaryAt a =
      some ⟨name, a, ty, .userDefined⟩ := by
  unfold run
  rw [foldl_append, foldl_cons]
  have hset : ((Call.setPrimary a name ty).apply (before.foldl Call.apply .new)).primaryAt a =
      some ⟨name, a, ty, .userDefined⟩ := by
    rw [Call.apply, SymbolTable.setPrimary, primaryAt, OrdMap.get?_insert_self]
    rfl
  generalize (Call.setPrimary a name ty).apply _ = t at hset
  induction after generalizing t with
  | nil => exact hset
  | cons c after ih =>
    exact ih (fun c hc => hafter c (mem_cons_of_mem _ hc)) _
      (primaryAt_apply hset (hafter c mem_cons_self))

theorem user_name_stays_primary_renamed :
    (run [.add ⟨"main", 0x1000, .function, .imported⟩, .setPrimary 0x1000 "renamed" .function,
      .removeAt 0x3000, .add ⟨"entry", 0x1000, .label, .analysis⟩]).primaryAt 0x1000 =
      some ⟨"renamed", 0x1000, .function, .userDefined⟩ :=
  user_name_stays_primary [.add ⟨"main", 0x1000, .function, .imported⟩]
    [.removeAt 0x3000, .add ⟨"entry", 0x1000, .label, .analysis⟩] 0x1000 "renamed" .function
    (by simp [Call.Overrides])

end SymbolTables
