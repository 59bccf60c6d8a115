import Reargo.ClassFiles

/-!
# Method resolution

A class path, its hierarchy, and the search for a method along one stack of superclasses and
interfaces. The search ends on every class path. What resolution should find is stated over
the hierarchy alone: superclass chains, superinterfaces, maximally specific declarations.

On a hierarchy without circles the search finds the declaration with the first route. Names that
were taken before are harmless: whatever was left through them declares nothing.
-/
namespace MethodResolution

open ClassFiles List Finset

structure ClassPath where
  classes : List ClassFile
  by_name : String → Option (Fin classes.length)

/-- `name.replace('.', "/")`. -/
def internal_name (name : String) : String := name.map fun c => if c = '.' then '/' else c

/-- `collect` into a map: a later pair replaces an earlier one of the same key. -/
def collect {α : Type} (ps : List (String × α)) : String → Option α :=
  ps.foldl (fun m p => Function.update m p.1 (some p.2)) fun _ => none

def enumerated (classes : List ClassFile) : ClassPath :=
  ⟨classes, collect ((List.finRange classes.length).map fun i => (classes[i].name, i))⟩

def from_classes (classes : List ClassFile) : ClassPath :=
  enumerated (classes.mergeSort fun a b => decide (a.name ≤ b.name))

variable (cp : ClassPath)

abbrev ClassPath.Index := Fin cp.classes.length

def class_index (name : String) : Option cp.Index := cp.by_name (internal_name name)

/-- The queue with its next name first, and the names already taken from it. -/
structure Search where
  queue : List String
  seen : Finset String

/-- The names a class pushes, the one to be taken next first. -/
def parents (cf : ClassFile) : List String := cf.superName.toList ++ cf.interfaces

/-- `methods.iter().position(..)`. -/
def methodIndex (cf : ClassFile) (name descriptor : String) : Option ℕ :=
  cf.methods.findIdx? fun m => m.name = name && m.descriptor = descriptor

/-- Every name that a class of the path can push. -/
def mentioned : Finset String := (cp.classes.flatMap parents).toFinset

theorem parents_mentioned (i : cp.Index) : (parents cp.classes[i]).toFinset ⊆ mentioned cp := by
  intro n hn
  rw [mem_toFinset] at hn
  rw [mentioned, mem_toFinset, mem_flatMap]
  exact ⟨cp.classes[i], getElem_mem _, hn⟩

/-- One round of the loop: a result, or the state it goes on with. -/
def step (name descriptor : String) (s : Search) : Option (cp.Index × ℕ) ⊕ Search :=
  match s.queue with
  | [] => .inl none
  | c :: queue =>
    if c ∈ s.seen then .inr ⟨queue, s.seen⟩
    else
      match class_index cp c with
      | none => .inr ⟨queue, insert c s.seen⟩
      | some ci =>
        match methodIndex cp.classes[ci] name descriptor with
        | some mi => .inl (some (ci, mi))
        | none => .inr ⟨parents cp.classes[ci] ++ queue, insert c s.seen⟩

def unseen (s : Search) : ℕ := ((mentioned cp ∪ s.queue.toFinset) \ s.seen).card

theorem step_decreases {name descriptor : String} {s t : Search}
    (h : step cp name descriptor s = .inr t) :
    unseen cp t < unseen cp s ∨ (unseen cp t ≤ unseen cp s ∧ t.queue.length < s.queue.length) := by
  obtain ⟨queue, seen⟩ := s
  unfold step at h
  cases queue with
  | nil => cases h
  | cons c queue =>
    dsimp only at h
    by_cases hc : c ∈ seen
    · rw [if_pos hc] at h
      cases h
      refine .inr ⟨card_le_card ?_, Nat.lt_succ_self _⟩
      refine sdiff_subset_sdiff (union_subset_union_right ?_) (Finset.Subset.refl _)
      rw [toFinset_cons]
      exact Finset.subset_insert c _
    rw [if_neg hc] at h
    -- the name leaves the unseen ones; what is pushed was mentioned before
    have fresh (pushed : List String) (hp : pushed.toFinset ⊆ mentioned cp) :
        unseen cp ⟨pushed ++ queue, insert c seen⟩ < unseen cp ⟨c :: queue, seen⟩ := by
      apply card_lt_card
      rw [ssubset_iff_of_subset]
      · exact ⟨c, by simp [hc], by simp⟩
      · intro n hn
        simp only [mem_sdiff, mem_union, mem_toFinset, mem_append,
          Finset.mem_insert, List.mem_cons, not_or] at hn ⊢
        refine ⟨?_, hn.2.2⟩
        rcases hn.1 with h | h | h
        · exact .inl h
        · exact .inl (hp (mem_toFinset.mpr h))
        · exact .inr (.inr h)
    cases hi : class_index cp c with
    | none =>
      rw [hi] at h
      cases h
      exact .inl (fresh [] (empty_subset _))
    | some ci =>
      rw [hi] at h
      dsimp only at h
      cases hm : methodIndex cp.classes[ci] name descriptor with
      | some mi =>
        rw [hm] at h
        cases h
      | none =>
        rw [hm] at h
        cases h
        exact .inl (fresh _ (parents_mentioned cp ci))

/-- The loop from a state on. -/
def resolveFrom (name descriptor : String) (s : Search) : Option (cp.Index × ℕ) :=
  match _h : step cp name descriptor s with
  | .inl r => r
  | .inr t => resolveFrom name descriptor t
termination_by (unseen cp s, s.queue.length)
decreasing_by
  rcases step_decreases cp _h with lt | ⟨le, lt⟩
  · exact Prod.Lex.left _ _ lt
  · rcases le.lt_or_eq with less | same
    · exact Prod.Lex.left _ _ less
    · rw [same]
      exact Prod.Lex.right _ lt

def resolve_method (cls name descriptor : String) : Option (cp.Index × ℕ) :=
  resolveFrom cp name descriptor ⟨[cls], ∅⟩

theorem resolveFrom_eq (name descriptor : String) (s : Search) :
    resolveFrom cp name descriptor s = match step cp name descriptor s with
      | .inl r => r
      | .inr t => resolveFrom cp name descriptor t := by
  rw [resolveFrom]
  split <;> simp_all

/-- The loop comes to its end with a result after finitely many rounds. -/
inductive Finishes (name descriptor : String) : Search → Option (cp.Index × ℕ) → Prop where
  | done {s r} : step cp name descriptor s = .inl r → Finishes name descriptor s r
  | again {s t r} : step cp name descriptor s = .inr t → Finishes name descriptor t r →
      Finishes name descriptor s r

theorem finishes_resolveFrom (name descriptor : String) (s : Search) :
    Finishes cp name descriptor s (resolveFrom cp name descriptor s) := by
  fun_induction resolveFrom cp name descriptor s with
  | case1 s r h => exact .done h
  | case2 s t h ih => exact .again h ih

/-- The class that a name stands for. -/
def IsNamed (n : String) (i : cp.Index) : Prop := cp.classes[i].name = internal_name n

/-- A direct superclass or superinterface. -/
def Parent (i j : cp.Index) : Prop := ∃ n ∈ parents cp.classes[i], IsNamed cp n j

/-- A number of steps from a class to a superclass. -/
inductive SuperChain : ℕ → cp.Index → cp.Index → Prop where
  | self (i) : SuperChain 0 i i
  | up {k n i j l} : cp.classes[i].superName = some n → IsNamed cp n j → SuperChain k j l →
      SuperChain (k + 1) i l

/-- An interface of the class or of a superclass, or what such an interface extends. -/
def SuperInterface (i l : cp.Index) : Prop :=
  ∃ k a n j, SuperChain cp k i a ∧ n ∈ cp.classes[a].interfaces ∧ IsNamed cp n j ∧
    Relation.ReflTransGen (Parent cp) j l

def Declares (name descriptor : String) (i : cp.Index) : Prop :=
  ∃ m ∈ cp.classes[i].methods, m.name = name ∧ m.descriptor = descriptor

/-- Declared in an interface no subinterface of which, among those of the class, declares it. -/
structure Maximal (name descriptor : String) (i l : cp.Index) : Prop where
  above : SuperInterface cp i l
  declares : Declares cp name descriptor l
  unextended : ∀ d, SuperInterface cp i d → Declares cp name descriptor d →
    ¬ Relation.TransGen (Parent cp) d l

/-- No superclass declares the method, and exactly one superinterface is maximally specific. -/
structure OnlyMaximal (name descriptor : String) (i l : cp.Index) : Prop where
  inherited : ∀ k a, SuperChain cp k i a → ¬ Declares cp name descriptor a
  maximal : Maximal cp name descriptor i l
  only : ∀ l', Maximal cp name descriptor i l' → l' = l

/-- The result of resolution from a class on is the one that it should be. -/
structure Follows (name descriptor : String) (i : cp.Index) (r : Option (cp.Index × ℕ)) :
    Prop where
  found : r.isSome ↔ ∃ l, ((∃ k, SuperChain cp k i l) ∨ SuperInterface cp i l) ∧
    Declares cp name descriptor l
  method : ∀ l m, r = some (l, m) → ∃ x, cp.classes[l].methods[m]? = some x ∧ x.name = name ∧
    x.descriptor = descriptor
  nearest : ∀ k l, SuperChain cp k i l → Declares cp name descriptor l →
    (∀ k' l', k' < k → SuperChain cp k' i l' → ¬ Declares cp name descriptor l') →
      ∃ m, r = some (l, m)
  specific : ∀ l, OnlyMaximal cp name descriptor i l → ∃ m, r = some (l, m)

/-- Names are distinct, every class that is named is there, no class is above itself. -/
structure Hierarchy : Prop where
  distinct : (cp.classes.map (·.name)).Nodup
  complete : ∀ i : cp.Index, ∀ n ∈ parents cp.classes[i], ∃ j, IsNamed cp n j
  acyclic : ∀ i, ¬ Relation.TransGen (Parent cp) i i

/-- The way from a class to one above it, by the positions of the parents taken: the superclass
first, then the interfaces in their order. -/
inductive Route : cp.Index → List ℕ → cp.Index → Prop where
  | here (i) : Route i [] i
  | up {k n i j l p} : (parents cp.classes[i])[k]? = some n → IsNamed cp n j → Route j p l →
      Route i (k :: p) l

/-- The order in which the search comes by two routes. -/
def Before : List ℕ → List ℕ → Prop := List.Lex (· < ·)

/-- Every route to another declaration comes after a route to the maximally specific one, in the
order of the positions. -/
def SpecificFirst (name descriptor : String) (i : cp.Index) : Prop :=
  ∀ l, OnlyMaximal cp name descriptor i l → ∀ d p, Route cp i p d →
    Declares cp name descriptor d → d ≠ l → ∃ q, Route cp i q l ∧ Before q p

section Names

variable {α : Type} {s : String}

theorem collect_absent (ps : List (String × α)) (m : String → Option α) (h : s ∉ ps.map Prod.fst) :
    ps.foldl (fun (m : String → Option α) p => Function.update m p.1 (some p.2)) m s = m s := by
  induction ps generalizing m with
  | nil => rfl
  | cons p ps ih =>
    rw [List.map_cons, List.mem_cons, not_or] at h
    rw [foldl_cons, ih _ h.2, Function.update_of_ne h.1]

theorem collect_present {v : α} (ps : List (String × α)) (m : String → Option α)
    (distinct : (ps.map Prod.fst).Nodup) (h : (s, v) ∈ ps) :
    ps.foldl (fun (m : String → Option α) p => Function.update m p.1 (some p.2)) m s = some v := by
  induction ps generalizing m with
  | nil => cases h
  | cons p ps ih =>
    rw [List.map_cons, nodup_cons] at distinct
    rw [foldl_cons]
    rcases List.mem_cons.mp h with rfl | h
    · rw [collect_absent ps _ distinct.1, Function.update_self]
    · exact ih _ distinct.2 h

theorem collect_iff {v : α} {ps : List (String × α)}
    (distinct : (ps.map Prod.fst).Nodup) : collect ps s = some v ↔ (s, v) ∈ ps := by
  constructor
  · intro h
    by_cases hs : s ∈ ps.map Prod.fst
    · obtain ⟨⟨s', w⟩, hw, rfl⟩ := List.mem_map.mp hs
      have found := collect_present ps (fun _ => none) distinct hw
      cases h.symm.trans found
      exact hw
    · have absent := collect_absent ps (fun _ => none) hs
      cases h.symm.trans absent
  · exact collect_present ps _ distinct

end Names

theorem class_index_iff (classes : List ClassFile) (h : Hierarchy (from_classes classes))
    (n : String) (i : (from_classes classes).Index) :
    class_index (from_classes classes) n = some i ↔ IsNamed (from_classes classes) n i := by
  have distinct : (((List.finRange (from_classes classes).classes.length).map fun i =>
      ((from_classes classes).classes[i].name, i)).map Prod.fst).Nodup := by
    rw [List.map_map]
    have names : (List.finRange (from_classes classes).classes.length).map
        (Prod.fst ∘ fun i => ((from_classes classes).classes[i].name, i)) =
          (from_classes classes).classes.map (·.name) := by
      apply ext_getElem
      · simp
      · simp
    rw [names]
    exact h.distinct
  have lookup := collect_iff (s := internal_name n) (v := i) distinct
  rw [List.mem_map] at lookup
  refine lookup.trans ?_
  constructor
  · rintro ⟨j, -, hj⟩
    obtain rfl : j = i := congrArg Prod.snd hj
    exact congrArg Prod.fst hj
  · intro hn
    exact ⟨i, mem_finRange i, by rw [← hn]⟩

section Search

variable {cp : ClassPath} (h : Hierarchy cp) {k : ℕ} {p : List ℕ}

include h in
theorem named_unique {n : String} {i j : cp.Index} (hi : IsNamed cp n i) (hj : IsNamed cp n j) :
    i = j := by
  have at_index (k : cp.Index) : (cp.classes.map (·.name))[k.val]? = some cp.classes[k].name := by
    rw [getElem?_map, getElem?_eq_getElem k.isLt]
    rfl
  have same := (at_index i).trans ((congrArg some (hi.trans hj.symm)).trans (at_index j).symm)
  exact Fin.ext ((getElem?_inj (by simp) h.distinct).mp same)

include h in
theorem route_tail {i j l : cp.Index} {n : String}
    (hr : Route cp i (k :: p) l) (hn : (parents cp.classes[i])[k]? = some n)
    (hj : IsNamed cp n j) : Route cp j p l := by
  cases hr with
  | up hn' hj' hr =>
    cases hn.symm.trans hn'
    cases named_unique h hj hj'
    exact hr

include h in
theorem route_unique {i l l' : cp.Index} (hl : Route cp i p l) (hl' : Route cp i p l') : l = l' := by
  induction hl with
  | here i =>
    cases hl'
    rfl
  | up hn hj _ ih =>
    exact ih (route_tail h hl' hn hj)

theorem route_reaches {i l : cp.Index} (hr : Route cp i p l) :
    Relation.ReflTransGen (Parent cp) i l := by
  induction hr with
  | here i => exact .refl
  | up hn hj _ ih => exact .head ⟨_, mem_of_getElem? hn, hj⟩ ih

theorem reaches_route {i l : cp.Index} (hr : Relation.ReflTransGen (Parent cp) i l) :
    ∃ p, Route cp i p l := by
  induction hr using Relation.ReflTransGen.head_induction_on with
  | refl => exact ⟨[], .here _⟩
  | head hp _ ih =>
    obtain ⟨n, hn, hj⟩ := hp
    obtain ⟨k, hk⟩ := mem_iff_getElem?.mp hn
    obtain ⟨p, hp⟩ := ih
    exact ⟨k :: p, .up hk hj hp⟩

theorem above_iff (i l : cp.Index) : ((∃ k, SuperChain cp k i l) ∨ SuperInterface cp i l) ↔
      Relation.ReflTransGen (Parent cp) i l := by
  have chain {k i l} (hc : SuperChain cp k i l) : Relation.ReflTransGen (Parent cp) i l := by
    induction hc with
    | self i => exact .refl
    | up hn hj _ ih => exact .head ⟨_, mem_append_left _ (Option.mem_toList.mpr hn), hj⟩ ih
  constructor
  · rintro (⟨k, hc⟩ | ⟨k, a, n, j, hc, hn, hj, hr⟩)
    · exact chain hc
    · exact (chain hc).trans (.head ⟨n, mem_append_right _ hn, hj⟩ hr)
  · intro hr
    induction hr using Relation.ReflTransGen.head_induction_on with
    | refl => exact .inl ⟨0, .self _⟩
    | head hp hr ih =>
      obtain ⟨n, hn, hj⟩ := hp
      rcases mem_append.mp hn with hs | hs
      · have sup := Option.mem_toList.mp hs
        rcases ih with ⟨k, hc⟩ | ⟨k, a, n', j', hc, hn', hj', hr'⟩
        · exact .inl ⟨k + 1, .up sup hj hc⟩
        · exact .inr ⟨k + 1, a, n', j', .up sup hj hc, hn', hj', hr'⟩
      · exact .inr ⟨0, _, n, _, .self _, hs, hj, hr⟩

variable (name descriptor : String)

/-- Nothing at or above the class declares the method. -/
def Clean (i : cp.Index) : Prop := ∀ p l, Route cp i p l → ¬ Declares cp name descriptor l

def First (i l : cp.Index) : Prop :=
  Declares cp name descriptor l ∧ ∃ q, Route cp i q l ∧
    ∀ p d, Route cp i p d → Declares cp name descriptor d → q = p ∨ Before q p

variable {i : cp.Index}

theorem methodIndex_none :
    methodIndex cp.classes[i] name descriptor = none ↔ ¬ Declares cp name descriptor i := by
  rw [methodIndex, findIdx?_eq_none_iff, Declares]
  simp

theorem methodIndex_some {m : ℕ} (hm : methodIndex cp.classes[i] name descriptor = some m) :
    ∃ x, cp.classes[i].methods[m]? = some x ∧ x.name = name ∧ x.descriptor = descriptor := by
  obtain ⟨hlt, hx, -⟩ := findIdx?_eq_some_iff_getElem.mp hm
  rw [Bool.and_eq_true, decide_eq_true_eq, decide_eq_true_eq] at hx
  exact ⟨_, getElem?_eq_getElem hlt, hx⟩

theorem clean_of_parents (here : ¬ Declares cp name descriptor i)
    (up : ∀ n ∈ parents cp.classes[i], ∀ j, IsNamed cp n j → Clean name descriptor j) :
    Clean name descriptor i := by
  intro p l hr
  cases hr with
  | here => exact here
  | up hn hj hr => exact up _ (mem_of_getElem? hn) _ hj _ _ hr

include h in
theorem first_of_parent {i j l : cp.Index} {n : String} (here : ¬ Declares cp name descriptor i)
    (hn : (parents cp.classes[i])[k]? = some n) (hj : IsNamed cp n j)
    (first : First name descriptor j l)
    (before : ∀ k' < k, ∀ n', (parents cp.classes[i])[k']? = some n' → ∀ j', IsNamed cp n' j' →
    Clean name descriptor j') : First name descriptor i l := by
  obtain ⟨hd, q, hq, least⟩ := first
  refine ⟨hd, k :: q, .up hn hj hq, ?_⟩
  intro p d hp declares
  cases hp with
  | here => exact absurd declares here
  | @up k' n' _ j' _ p hn' hj' hr =>
    rcases lt_trichotomy k' k with lt | rfl | gt
    · exact absurd declares (before k' lt n' hn' j' hj' _ _ hr)
    · cases hn.symm.trans hn'
      cases named_unique h hj hj'
      rcases least _ _ hr declares with rfl | lt
      · exact .inl rfl
      · exact .inr (.cons lt)
    · exact .inr (.rel gt)

/-- What the search makes of a class at the front of the queue: it leaves it clean behind, or
ends with the first declaration. -/
def Visited (i : cp.Index) : Prop :=
  ∀ n rest seen, IsNamed cp n i →
    (∀ s ∈ seen, ∀ j, IsNamed cp s j → Relation.ReflTransGen (Parent cp) i j →
      Clean name descriptor j) →
    (Clean name descriptor i ∧ ∃ seen' : Finset String,
      resolveFrom cp name descriptor ⟨n :: rest, seen⟩ =
        resolveFrom cp name descriptor ⟨rest, seen'⟩ ∧
      ∀ s ∈ seen', s ∈ seen ∨ ∀ j, IsNamed cp s j → Clean name descriptor j) ∨
    ∃ l m, First name descriptor i l ∧ methodIndex cp.classes[l] name descriptor = some m ∧
      resolveFrom cp name descriptor ⟨n :: rest, seen⟩ = some (l, m)

theorem visit_parents (hv : ∀ j, Parent cp i j → Visited name descriptor j)
    (complete : ∀ n ∈ parents cp.classes[i], ∃ j, IsNamed cp n j) (ns : List String)
    (hns : ∀ n ∈ ns, n ∈ parents cp.classes[i]) (rest : List String) (seen : Finset String)
    (hseen : ∀ s ∈ seen, ∀ j, IsNamed cp s j → Relation.TransGen (Parent cp) i j →
      Clean name descriptor j) :
    ((∀ n ∈ ns, ∃ j, IsNamed cp n j ∧ Clean name descriptor j) ∧ ∃ seen' : Finset String,
      resolveFrom cp name descriptor ⟨ns ++ rest, seen⟩ =
        resolveFrom cp name descriptor ⟨rest, seen'⟩ ∧
      ∀ s ∈ seen', s ∈ seen ∨ ∀ j, IsNamed cp s j → Clean name descriptor j) ∨
    ∃ (k : ℕ) (n : String) (j l : cp.Index) (m : ℕ), ns[k]? = some n ∧ IsNamed cp n j ∧
      First name descriptor j l ∧ methodIndex cp.classes[l] name descriptor = some m ∧
      (∀ k' < k, ∀ n', ns[k']? = some n' → ∃ j', IsNamed cp n' j' ∧ Clean name descriptor j') ∧
      resolveFrom cp name descriptor ⟨ns ++ rest, seen⟩ = some (l, m) := by
  induction ns generalizing seen with
  | nil => exact .inl ⟨by simp, seen, rfl, fun s hs => .inl hs⟩
  | cons n ns ih =>
    have hn := hns n mem_cons_self
    obtain ⟨j, hj⟩ := complete n hn
    have parent : Parent cp i j := ⟨n, hn, hj⟩
    rcases hv j parent n (ns ++ rest) seen hj
      (fun s hs j' hj' hr => hseen s hs j' hj' (.head' parent hr)) with
      ⟨clean, seen₁, run₁, mem₁⟩ | ⟨l, m, first, hm, run⟩
    · have hseen₁ : ∀ s ∈ seen₁, ∀ j, IsNamed cp s j → Relation.TransGen (Parent cp) i j →
          Clean name descriptor j := by
        intro s hs j' hj' hr
        rcases mem₁ s hs with old | new
        · exact hseen s old j' hj' hr
        · exact new j' hj'
      rcases ih (fun n h => hns n (mem_cons_of_mem _ h)) seen₁ hseen₁ with
        ⟨cleans, seen₂, run₂, mem₂⟩ | ⟨k, n', j', l, m, hk, hj', first, hm, before, run⟩
      · refine .inl ⟨?_, seen₂, run₁.trans run₂, ?_⟩
        · intro n' hn'
          rcases List.mem_cons.mp hn' with rfl | hn'
          · exact ⟨j, hj, clean⟩
          · exact cleans n' hn'
        · intro s hs
          rcases mem₂ s hs with old | new
          · exact mem₁ s old
          · exact .inr new
      · refine .inr ⟨k + 1, n', j', l, m, hk, hj', first, hm, ?_, run₁.trans run⟩
        intro k' hk' n'' hn''
        cases k' with
        | zero =>
          cases hn''
          exact ⟨j, hj, clean⟩
        | succ k' => exact before k' (Nat.lt_of_succ_lt_succ hk') n'' hn''
    · refine .inr ⟨0, n, j, l, m, rfl, hj, first, hm, ?_, run⟩
      intro k' hk'
      exact absurd hk' (Nat.not_lt_zero _)

section Visit

variable (lookup : ∀ (n : String) (i : cp.Index), class_index cp n = some i ↔ IsNamed cp n i)

theorem resolveFrom_fresh {n : String} {i : cp.Index} (rest : List String) {seen : Finset String}
    (found : class_index cp n = some i) (fresh : n ∉ seen) :
    resolveFrom cp name descriptor ⟨n :: rest, seen⟩ =
      match methodIndex cp.classes[i] name descriptor with
      | some m => some (i, m)
      | none => resolveFrom cp name descriptor ⟨parents cp.classes[i] ++ rest, insert n seen⟩ := by
  rw [resolveFrom_eq, step]
  dsimp only
  rw [if_neg fresh, found]
  dsimp only
  cases methodIndex cp.classes[i] name descriptor <;> rfl

include h lookup in
theorem visit_step {i : cp.Index} (hv : ∀ j, Parent cp i j → Visited name descriptor j) :
    Visited name descriptor i := by
  intro n rest seen hn hseen
  by_cases taken : n ∈ seen
  · refine .inl ⟨hseen n taken i hn .refl, seen, ?_, fun s hs => .inl hs⟩
    rw [resolveFrom_eq, step]
    dsimp only
    rw [if_pos taken]
  have run := resolveFrom_fresh name descriptor rest ((lookup n i).mpr hn) taken
  cases hm : methodIndex cp.classes[i] name descriptor with
  | some m =>
    rw [hm] at run
    obtain ⟨x, hx, same⟩ := methodIndex_some name descriptor hm
    have declares : Declares cp name descriptor i := ⟨x, mem_of_getElem? hx, same⟩
    refine .inr ⟨i, m, ⟨declares, [], .here i, fun p _ _ _ => ?_⟩, hm, run⟩
    cases p with
    | nil => exact .inl rfl
    | cons k p => exact .inr .nil
  | none =>
    rw [hm] at run
    dsimp only at run
    have here := (methodIndex_none name descriptor).mp hm
    -- the class itself is not met again below, for it would be above itself
    have hseen' : ∀ s ∈ insert n seen, ∀ j, IsNamed cp s j → Relation.TransGen (Parent cp) i j →
        Clean name descriptor j := by
      intro s hs j hj hr
      rcases mem_insert.mp hs with rfl | hs
      · cases named_unique h hn hj
        exact absurd hr (h.acyclic i)
      · exact hseen s hs j hj hr.to_reflTransGen
    have cleanOf {n' : String} {j : cp.Index} (hj : IsNamed cp n' j)
        (hc : ∃ j', IsNamed cp n' j' ∧ Clean name descriptor j') : Clean name descriptor j := by
      obtain ⟨j', hj', hc⟩ := hc
      cases named_unique h hj hj'
      exact hc
    rcases visit_parents name descriptor hv (h.complete i) (parents cp.classes[i]) (fun _ => id)
      rest (insert n seen) hseen' with
      ⟨cleans, seen', run', mem'⟩ | ⟨k, n', j, l, m, hk, hj, first, hm', before, run'⟩
    · have clean := clean_of_parents name descriptor here fun n' hn' j hj => cleanOf hj (cleans n' hn')
      refine .inl ⟨clean, seen', run.trans run', ?_⟩
      intro s hs
      rcases mem' s hs with old | new
      · rcases mem_insert.mp old with rfl | old
        · refine .inr fun j hj => ?_
          cases named_unique h hn hj
          exact clean
        · exact .inl old
      · exact .inr new
    · refine .inr ⟨l, m, ?_, hm', run.trans run'⟩
      exact first_of_parent h name descriptor here hk hj first fun k' hk' n'' hn'' j'' hj'' =>
        cleanOf hj'' (before k' hk' n'' hn'')

include h lookup in
theorem visited (i : cp.Index) : Visited name descriptor i := by
  let below : cp.Index → cp.Index → Prop := fun a b => Relation.TransGen (Parent cp) b a
  have : IsTrans cp.Index below := ⟨fun a b c hab hbc => hbc.trans hab⟩
  have : Std.Irrefl below := ⟨h.acyclic⟩
  have ends : WellFounded below := Finite.wellFounded_of_trans_of_irrefl below
  induction i using ends.induction with
  | _ i ih => exact visit_step h name descriptor lookup fun j hj => ih j (.single hj)

include h lookup in
theorem resolve_outcome {c : String} {i : cp.Index} (hc : IsNamed cp c i) :
    (Clean name descriptor i ∧ resolve_method cp c name descriptor = none) ∨
      ∃ l m, First name descriptor i l ∧ methodIndex cp.classes[l] name descriptor = some m ∧
        resolve_method cp c name descriptor = some (l, m) := by
  rcases visited h name descriptor lookup i c [] ∅ hc (by simp) with
    ⟨clean, seen', run, -⟩ | found
  · refine .inl ⟨clean, run.trans ?_⟩
    rw [resolveFrom_eq]
    rfl
  · exact .inr found

end Visit

theorem before_replicate {q : List ℕ} (hq : Before q (List.replicate k 0)) :
    ∃ k' < k, q = List.replicate k' 0 := by
  induction k generalizing q with
  | zero => cases hq
  | succ k ih =>
    rw [replicate_succ] at hq
    cases hq with
    | nil => exact ⟨0, Nat.succ_pos k, rfl⟩
    | cons hq =>
      obtain ⟨k', hk', rfl⟩ := ih hq
      exact ⟨k' + 1, Nat.succ_lt_succ hk', rfl⟩
    | rel lt => exact absurd lt (Nat.not_lt_zero _)

theorem chain_route {i l : cp.Index} (hc : SuperChain cp k i l) :
    Route cp i (List.replicate k 0) l := by
  induction hc with
  | self i => exact .here i
  | up hn hj _ ih => exact .up (by simp only [parents, hn]; rfl) hj ih

include h in
theorem chain_of_route {k' : ℕ} {i l l' : cp.Index} (hc : SuperChain cp k i l) (hk : k' ≤ k)
    (hr : Route cp i (List.replicate k' 0) l') : SuperChain cp k' i l' := by
  induction hc generalizing k' with
  | self i =>
    obtain rfl : k' = 0 := Nat.le_zero.mp hk
    cases hr
    exact .self _
  | @up k n i j l hn hj _ ih =>
    cases k' with
    | zero =>
      cases hr
      exact .self _
    | succ k' =>
      rw [replicate_succ] at hr
      cases hr with
      | up hn' hj' hr =>
        have first : (parents cp.classes[i])[0]? = some n := by simp only [parents, hn]; rfl
        cases first.symm.trans hn'
        cases named_unique h hj hj'
        exact .up hn hj (ih (Nat.le_of_succ_le_succ hk) hr)

include h in
theorem nearest_is_first {i l f : cp.Index} (hc : SuperChain cp k i l)
    (hd : Declares cp name descriptor l)
    (nearer : ∀ k' l', k' < k → SuperChain cp k' i l' → ¬ Declares cp name descriptor l')
    (first : First name descriptor i f) : f = l := by
  obtain ⟨hf, q, hq, least⟩ := first
  rcases least _ _ (chain_route hc) hd with rfl | lt
  · exact route_unique h hq (chain_route hc)
  · obtain ⟨k', hk', rfl⟩ := before_replicate lt
    exact absurd hf (nearer k' f hk' (chain_of_route h hc hk'.le hq))

theorem before_irrefl (p : List ℕ) : ¬ Before p p := by
  induction p with
  | nil => exact nofun
  | cons k p ih =>
    intro hp
    cases hp with
    | cons hp => exact ih hp
    | rel lt => exact lt_irrefl k lt

theorem before_asymm {q : List ℕ} (hp : Before p q) : ¬ Before q p := by
  induction hp with
  | nil => exact nofun
  | cons _ ih =>
    intro hq
    cases hq with
    | cons hq => exact ih hq
    | rel lt => exact lt_irrefl _ lt
  | rel lt =>
    intro hq
    cases hq with
    | cons _ => exact lt_irrefl _ lt
    | rel gt => exact lt_asymm lt gt

theorem clean_above (clean : Clean name descriptor i) {l : cp.Index}
    (above : (∃ k, SuperChain cp k i l) ∨ SuperInterface cp i l) :
    ¬ Declares cp name descriptor l := by
  obtain ⟨p, hp⟩ := reaches_route ((above_iff i l).mp above)
  exact clean p l hp

variable (lookup : ∀ (n : String) (i : cp.Index), class_index cp n = some i ↔ IsNamed cp n i)

include h lookup in
theorem follows_iff {c : String} (hc : IsNamed cp c i) :
    Follows cp name descriptor i (resolve_method cp c name descriptor) ↔
      SpecificFirst cp name descriptor i := by
  rcases resolve_outcome h name descriptor lookup hc with ⟨clean, none⟩ | ⟨f, m, first, hm, found⟩
  · -- nothing declares the method
    have nothing (l) (hl : OnlyMaximal cp name descriptor i l) : False :=
      clean_above name descriptor clean (.inr hl.maximal.above) hl.maximal.declares
    refine iff_of_true ⟨?_, ?_, ?_, ?_⟩ fun l hl => (nothing l hl).elim
    · rw [none]
      exact iff_of_false nofun fun ⟨l, above, hd⟩ => clean_above name descriptor clean above hd
    · rw [none]
      exact nofun
    · intro k l chain hd _
      exact absurd hd (clean_above name descriptor clean (.inl ⟨k, chain⟩))
    · exact fun l hl => (nothing l hl).elim
  · have only (l) : (∃ m, resolve_method cp c name descriptor = some (l, m)) ↔ f = l := by
      rw [found]
      constructor
      · rintro ⟨m', hm'⟩
        cases hm'
        rfl
      · rintro rfl
        exact ⟨m, rfl⟩
    have ⟨declares, q, hq, least⟩ := first
    constructor
    · intro follows l hl d p hp hd other
      obtain rfl := (only l).mp (follows.specific l hl)
      refine ⟨q, hq, (least p d hp hd).resolve_left ?_⟩
      rintro rfl
      exact other (route_unique h hp hq)
    · intro specific
      refine ⟨?_, ?_, ?_, ?_⟩
      · rw [found]
        exact iff_of_true rfl ⟨f, (above_iff i f).mpr (route_reaches hq), declares⟩
      · intro l m' hm'
        rw [found] at hm'
        cases hm'
        exact methodIndex_some name descriptor hm
      · intro k l chain hd nearer
        exact (only l).mpr (nearest_is_first h name descriptor chain hd nearer first)
      · intro l hl
        rw [only]
        by_contra other
        obtain ⟨q', hq', lt⟩ := specific l hl f q hq declares other
        rcases least q' l hq' hl.maximal.declares with rfl | lt'
        · exact before_irrefl _ lt
        · exact before_asymm lt lt'

end Search

/-- The search ends on every class path, and on a hierarchy of present classes it finds what it
should exactly if every route to another declaration comes after one to the most specific. -/
theorem resolve_method_follows_iff (cp : ClassPath) (c name descriptor : String) :
    Finishes cp name descriptor ⟨[c], ∅⟩ (resolve_method cp c name descriptor) ∧
      ∀ classes : List ClassFile, cp = from_classes classes → Hierarchy cp →
        ∀ i : cp.Index, IsNamed cp c i →
          (Follows cp name descriptor i (resolve_method cp c name descriptor) ↔
            SpecificFirst cp name descriptor i) := by
  constructor
  · exact finishes_resolveFrom cp name descriptor _
  · rintro classes rfl h i hc
    exact follows_iff h name descriptor (class_index_iff classes h) hc

def classOf (name : String) (super : Option String) (interfaces : List String)
    (methods : List (String × String)) : ClassFile where
  minorVersion := 0
  majorVersion := 52
  constants := []
  access := 0
  name := name
  superName := super
  interfaces := interfaces
  fields := []
  methods := methods.map fun m => ⟨0, m.1, m.2, none, none, none⟩
  sourceFile := none
  signature := none

def overridden : List ClassFile :=
  [classOf "B" (some "Object") ["I"] [], classOf "C" (some "B") ["J"] [],
    classOf "I" (some "Object") [] [("m", "()V")], classOf "J" (some "Object") ["I"] [("m", "()V")],
    classOf "Object" none [] []]

def overriddenPath : ClassPath := enumerated overridden

theorem from_classes_overridden : from_classes overridden = overriddenPath := by
  have sorted : overridden.Pairwise fun a b => decide (a.name ≤ b.name) = true := by decide
  rw [from_classes, mergeSort_of_pairwise sorted]
  rfl

theorem internal_plain {n : String} (h : n.toList.all (· ≠ '.') = true) : internal_name n = n := by
  have plain : ∀ c ∈ n.toList, c ≠ '.' := fun c hc => of_decide_eq_true (all_eq_true.mp h c hc)
  apply String.toList_inj.mp
  rw [internal_name, String.toList_map]
  refine (map_congr_left fun c hc => ?_).trans (map_id _)
  rw [if_neg (plain c hc)]
  rfl

/-- The height of a class over the root. -/
def overriddenHeight : Fin 5 → ℕ
  | 0 => 3
  | 1 => 4
  | 2 => 1
  | 3 => 2
  | 4 => 0

theorem overridden_names : ∀ i : Fin 5, ∀ n ∈ parents overridden[i], internal_name n = n := by
  intro i n hn
  apply internal_plain
  revert i n
  decide

theorem parent_lower {i j : overriddenPath.Index} (h : Parent overriddenPath i j) :
    overriddenHeight j < overriddenHeight i := by
  obtain ⟨n, hn, hj⟩ := h
  have named : overridden[j].name = n := hj.trans (overridden_names i n hn)
  have lower : ∀ i j : Fin 5, ∀ n ∈ parents overridden[i], overridden[j].name = n →
      overriddenHeight j < overriddenHeight i := by decide
  exact lower i j n hn named

theorem above_lower {i j : overriddenPath.Index}
    (h : Relation.TransGen (Parent overriddenPath) i j) :
    overriddenHeight j < overriddenHeight i := by
  induction h with
  | single h => exact parent_lower h
  | tail _ h ih => exact (parent_lower h).trans ih

theorem overridden_hierarchy : Hierarchy overriddenPath where
  distinct := by decide
  complete := by
    intro i n hn
    have there : ∀ i : Fin 5, ∀ n ∈ parents overridden[i], ∃ j : Fin 5, overridden[j].name = n := by
      decide
    obtain ⟨j, hj⟩ := there i n hn
    exact ⟨j, hj.trans (overridden_names i n hn).symm⟩
  acyclic := fun i h => lt_irrefl _ (above_lower h)

theorem overridden_declares (i : overriddenPath.Index) :
    Declares overriddenPath "m" "()V" i ↔ i = (2 : Fin 5) ∨ i = (3 : Fin 5) := by
  have all : ∀ i : Fin 5, (∃ m ∈ overridden[i].methods, m.name = "m" ∧ m.descriptor = "()V") ↔
      i = 2 ∨ i = 3 := by decide
  exact all i

theorem named_C : IsNamed overriddenPath "C" (1 : Fin 5) := (internal_plain (by decide)).symm

theorem named_B : IsNamed overriddenPath "B" (0 : Fin 5) := (internal_plain (by decide)).symm

theorem named_I : IsNamed overriddenPath "I" (2 : Fin 5) := (internal_plain (by decide)).symm

theorem named_Object : IsNamed overriddenPath "Object" (4 : Fin 5) :=
  (internal_plain (by decide)).symm

theorem named_J : IsNamed overriddenPath "J" (3 : Fin 5) := (internal_plain (by decide)).symm

theorem overridden_maximal : OnlyMaximal overriddenPath "m" "()V" (1 : Fin 5) (3 : Fin 5) := by
  have above : SuperInterface overriddenPath (1 : Fin 5) (3 : Fin 5) :=
    ⟨0, (1 : Fin 5), "J", (3 : Fin 5), .self _, by decide, named_J, .refl⟩
  have extended : Parent overriddenPath (3 : Fin 5) (2 : Fin 5) :=
    ⟨"I", by decide, named_I⟩
  have declaresJ := (overridden_declares (3 : Fin 5)).mpr (.inr rfl)
  refine ⟨?_, ⟨above, declaresJ, ?_⟩, ?_⟩
  · -- the chain stays among the classes that are no interfaces
    have closed : ∀ i j : Fin 5, i ≠ 2 → i ≠ 3 → ∀ n ∈ overridden[i].superName,
        overridden[j].name = n → j ≠ 2 ∧ j ≠ 3 := by decide
    have chain {k i a} (hc : SuperChain overriddenPath k i a) (hi : i ≠ (2 : Fin 5))
        (hi' : i ≠ (3 : Fin 5)) : ¬ Declares overriddenPath "m" "()V" a := by
      induction hc with
      | self i =>
        rw [overridden_declares]
        exact not_or.mpr ⟨hi, hi'⟩
      | @up k n i j l hn hj _ ih =>
        have mem : n ∈ parents overridden[i] :=
          mem_append_left _ (Option.mem_toList.mpr hn)
        obtain ⟨h2, h3⟩ := closed i j hi hi' n hn (hj.trans (overridden_names i n mem))
        exact ih h2 h3
    have others : (1 : Fin 5) ≠ 2 ∧ (1 : Fin 5) ≠ 3 := by decide
    exact fun k a hc => chain hc others.1 others.2
  · intro d _ hd hr
    have lower := above_lower hr
    rcases (overridden_declares d).mp hd with rfl | rfl
    · exact absurd lower (by decide)
    · exact absurd lower (by decide)
  · intro l hl
    rcases (overridden_declares l).mp hl.declares with rfl | rfl
    · exact absurd (.single extended) (hl.unextended _ above declaresJ)
    · rfl

theorem overridden_not_first : ¬ SpecificFirst overriddenPath "m" "()V" (1 : Fin 5) := by
  intro h
  have fromB : Route overriddenPath (0 : Fin 5) [1] (2 : Fin 5) :=
    .up (n := "I") rfl named_I (.here _)
  have fromC : Route overriddenPath (1 : Fin 5) [0, 1] (2 : Fin 5) :=
    .up (n := "B") rfl named_B fromB
  have other : (2 : Fin 5) ≠ 3 := by decide
  obtain ⟨q, hq, before⟩ := h _ overridden_maximal (2 : Fin 5) [0, 1] fromC
    ((overridden_declares _).mpr (.inl rfl)) other
  cases before with
  | nil =>
    have same := route_unique overridden_hierarchy hq (.here _)
    exact absurd same (show (3 : Fin 5) ≠ 1 by decide)
  | rel lt => exact absurd lt (Nat.not_lt_zero _)
  | cons before =>
    have hq := route_tail overridden_hierarchy hq rfl named_B
    cases before with
    | nil =>
      have same := route_unique overridden_hierarchy hq (.here _)
      exact absurd same (show (3 : Fin 5) ≠ 0 by decide)
    | cons before => cases before
    | @rel k _ _ _ lt =>
      obtain rfl : k = 0 := Nat.lt_one_iff.mp lt
      have hq := route_tail overridden_hierarchy hq rfl named_Object
      rcases (Relation.reflTransGen_iff_eq_or_transGen).mp (route_reaches hq) with same | above
      · exact absurd same (show (3 : Fin 5) ≠ 4 by decide)
      · exact absurd (above_lower above) (by decide)

/-- `m` of `C` is resolved to the declaration of `I` that `J` overrides. -/
theorem overridden_default_resolved : Hierarchy (from_classes overridden) ∧
    ∃ i, IsNamed (from_classes overridden) "C" i ∧ ¬ Follows (from_classes overridden) "m" "()V" i
        (resolve_method (from_classes overridden) "C" "m" "()V") := by
  have lookup := class_index_iff overridden (from_classes_overridden ▸ overridden_hierarchy)
  rw [from_classes_overridden] at lookup ⊢
  refine ⟨overridden_hierarchy, (1 : Fin 5), named_C, ?_⟩
  rw [follows_iff overridden_hierarchy "m" "()V" lookup named_C]
  exact overridden_not_first

theorem overridden_resolution : ∃ i, IsNamed (from_classes overridden) "C" i ∧
    ¬ SpecificFirst (from_classes overridden) "m" "()V" i ∧
      ¬ Follows (from_classes overridden) "m" "()V" i
        (resolve_method (from_classes overridden) "C" "m" "()V") := by
  rw [from_classes_overridden]
  have follows := (resolve_method_follows_iff overriddenPath "C" "m" "()V").2 overridden
    from_classes_overridden.symm overridden_hierarchy (1 : Fin 5) named_C
  exact ⟨(1 : Fin 5), named_C, overridden_not_first, fun h => overridden_not_first (follows.mp h)⟩

end MethodResolution
