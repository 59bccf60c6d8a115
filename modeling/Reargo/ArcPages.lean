import Reargo.EmulatorMemory

/-!
# Copy-on-write pages behind `Arc`

Emulator states share their pages. A heap holds every page allocation with its
strong count; a state maps page addresses to allocations. Cloning a state bumps
the counts, `Arc::make_mut` writes in place when the count is one and forks the
page otherwise. Whole runs of operations on any number of states are compared
with byte maps that are never shared.
-/
namespace ArcPages

open PcodeModel OrderedMap LittleEndian EmulatorMemory List Option

structure ArcCell where
  page : Page
  strong : ℕ

structure ArcSpace where
  pages : OrdMap U64 ℕ

structure ArcState where
  spaces : OrdMap ℕ ArcSpace

/-- All states of a run and the heap they share; a dropped state leaves its slot empty. -/
structure World where
  heap : List ArcCell
  states : List (Option ArcState)

def ArcState.new : ArcState := ⟨OrdMap.empty⟩

def ArcState.space (s : ArcState) (sp : SpaceId) : ArcSpace :=
  (s.spaces.get? sp).getD ⟨OrdMap.empty⟩

def ArcState.setSpace (s : ArcState) (sp : SpaceId) (d : ArcSpace) : ArcState :=
  ⟨s.spaces.insert sp d⟩

/-- The allocations a state points to, with repetition. -/
def ArcState.refs (s : ArcState) : List ℕ := s.spaces.values.flatMap fun d => d.pages.values

namespace World

def state? (w : World) (h : ℕ) : Option ArcState := (w.states[h]?).join

def refs (w : World) : List ℕ := w.states.flatMap fun o => (o.map ArcState.refs).getD []

def strong (w : World) (l : ℕ) : ℕ := ((w.heap[l]?).map ArcCell.strong).getD 0

/-- The allocation behind a page address of a state. -/
def entry (w : World) (h : ℕ) (sp : SpaceId) (a : U64) : Option ℕ :=
  (w.state? h).bind fun s => (s.spaces.get? sp).bind fun d => d.pages.get? a

def page (w : World) (h : ℕ) (sp : SpaceId) (a : U64) : Option Page :=
  (w.entry h sp a).bind fun l => (w.heap[l]?).map ArcCell.page

def setState (w : World) (h : ℕ) (s : ArcState) : World := ⟨w.heap, w.states.set h (some s)⟩

def getSpaceMut (w : World) (h : ℕ) (sp : SpaceId) : World :=
  match w.state? h with
  | some s => w.setState h (s.setSpace sp (s.space sp))
  | none => w

/-- Point a page address of a state at an allocation. -/
def setEntry (w : World) (h : ℕ) (sp : SpaceId) (a : U64) (l : ℕ) : World :=
  match w.state? h with
  | some s => w.setState h (s.setSpace sp ⟨(s.space sp).pages.insert a l⟩)
  | none => w

/-- `.entry(page_addr).or_insert_with(|| Arc::new([0u8; PAGE_SIZE]))`: the entry's allocation. -/
def orInsertZero (w : World) (h : ℕ) (sp : SpaceId) (a : U64) : World × ℕ :=
  match w.entry h sp a with
  | some l => (w, l)
  | none =>
    let fresh : ArcCell := ⟨zeroPage, 1⟩
    (setEntry ⟨w.heap ++ [fresh], w.states⟩ h sp a w.heap.length, w.heap.length)

/-- A write through `Arc::make_mut(entry)`: in place when nobody else holds the page. -/
def makeMut (w : World) (h : ℕ) (sp : SpaceId) (a : U64) (l : ℕ) (f : Page → Page) : World :=
  match w.heap[l]? with
  | some c =>
    if c.strong = 1 then ⟨w.heap.set l ⟨f c.page, 1⟩, w.states⟩
    else
      let fork : ArcCell := ⟨f c.page, 1⟩
      setEntry ⟨w.heap.set l ⟨c.page, c.strong - 1⟩ ++ [fork], w.states⟩ h sp a w.heap.length
  | none => w

def pageMut (w : World) (h : ℕ) (sp : SpaceId) (a : U64) (f : Page → Page) : World :=
  let (w, l) := w.orInsertZero h sp a
  w.makeMut h sp a l f

/-- `EmulatorState::clone`: every page's count goes up by the pointers copied. -/
def clone (w : World) (h : ℕ) : World :=
  match w.state? h with
  | some s => ⟨w.heap.mapIdx fun l c => ⟨c.page, c.strong + s.refs.count l⟩, w.states ++ [some s]⟩
  | none => w

/-- Dropping a state releases its pointers. -/
def drop (w : World) (h : ℕ) : World :=
  match w.state? h with
  | some s => ⟨w.heap.mapIdx fun l c => ⟨c.page, c.strong - s.refs.count l⟩, w.states.set h none⟩
  | none => w

/-- The access paths of `EmulatorMemory` for state `h`. -/
def access (h : ℕ) : PageAccess World where
  getSpaceMut w sp := w.getSpaceMut h sp
  page w sp a := w.page h sp a
  pageMut w sp a f := w.pageMut h sp a f

/-- Every strong count is the number of pointers to its page. -/
def Counted (w : World) : Prop := ∀ l, w.refs.count l = w.strong l

end World

theorem count_refs_setSpace (s : ArcState) (sp : SpaceId) (d : ArcSpace) (l : ℕ) :
    (s.space sp).pages.values.count l + (s.setSpace sp d).refs.count l =
      d.pages.values.count l + s.refs.count l := by
  unfold ArcState.space ArcState.setSpace ArcState.refs
  cases hg : s.spaces.get? sp with
  | none =>
    have hp := (OrdMap.values_insert_fresh d hg).flatMap_right (fun d => d.pages.values)
    have hc := hp.count_eq l
    simpa using hc
  | some e =>
    have hp := (OrdMap.values_insert_replace d hg).flatMap_right (fun d => d.pages.values)
    have hc := hp.count_eq l
    simpa using hc

variable {sp : SpaceId} {a : U64}

namespace World

variable {w : World}

variable {s : ArcState}

variable {h : ℕ} {l : ℕ}

theorem getElem_of_state? (hs : w.state? h = some s) :
    ∃ hh : h < w.states.length, w.states[h] = some s := by
  unfold state? at hs
  cases hg : w.states[h]? with
  | none => simp [hg] at hs
  | some o =>
    obtain ⟨hh, he⟩ := List.getElem?_eq_some_iff.mp hg
    refine ⟨hh, ?_⟩
    simpa [hg, he] using hs

theorem count_refs_set {states : List (Option ArcState)} (hh : h < states.length)
    (o : Option ArcState) (l : ℕ) :
    ((states[h].map ArcState.refs).getD []).count l +
        ((states.set h o).flatMap fun o => (o.map ArcState.refs).getD []).count l =
      ((o.map ArcState.refs).getD []).count l +
        (states.flatMap fun o => (o.map ArcState.refs).getD []).count l := by
  induction states generalizing h with
  | nil => simp at hh
  | cons x xs ih =>
    cases h with
    | zero => simp [count_append]; omega
    | succ h =>
      have := ih (h := h) (by simpa using hh)
      simp only [getElem_cons_succ, set_cons_succ, flatMap_cons, count_append] at this ⊢
      omega

theorem count_refs_setEntry (hs : w.state? h = some s) (sp : SpaceId) (a : U64) (x l : ℕ) :
    (if w.entry h sp a = some l then 1 else 0) + (w.setEntry h sp a x).refs.count l =
      (if x = l then 1 else 0) + w.refs.count l := by
  obtain ⟨hh, he⟩ := getElem_of_state? hs
  have hw := count_refs_set hh (some (s.setSpace sp ⟨(s.space sp).pages.insert a x⟩)) l
  have hsp := count_refs_setSpace s sp ⟨(s.space sp).pages.insert a x⟩ l
  have hentry : w.entry h sp a = (s.space sp).pages.get? a := by
    simp only [entry, hs, bind_some, ArcState.space]
    cases s.spaces.get? sp <;> simp
  have hpg : (if w.entry h sp a = some l then 1 else 0) +
      ((s.space sp).pages.insert a x).values.count l =
        (if x = l then 1 else 0) + (s.space sp).pages.values.count l := by
    rw [hentry]
    cases hg : (s.space sp).pages.get? a with
    | none =>
      have hc := (OrdMap.values_insert_fresh x hg).count_eq l
      simp only [count_cons, beq_iff_eq] at hc
      simp only [reduceCtorEq, if_false]
      omega
    | some y =>
      have hc := (OrdMap.values_insert_replace x hg).count_eq l
      simp only [count_cons, beq_iff_eq] at hc
      simp only [some.injEq]
      omega
  simp only [he, map_some, getD_some] at hw
  dsimp only at hsp
  simp only [setEntry, hs, refs, setState]
  omega

theorem mem_refs_of_entry (he : w.entry h sp a = some l) : l ∈ w.refs := by
  simp only [entry, bind_eq_some_iff] at he
  obtain ⟨s, hs, d, hd, hl⟩ := he
  obtain ⟨hh, hs⟩ := getElem_of_state? hs
  refine mem_flatMap.mpr ⟨some s, hs ▸ getElem_mem hh, ?_⟩
  exact mem_flatMap.mpr ⟨d, OrdMap.mem_values_of_get? hd, OrdMap.mem_values_of_get? hl⟩

theorem state?_setState (hs : w.state? h = some s) (t : ArcState) (h' : ℕ) :
    (w.setState h t).state? h' = if h' = h then some t else w.state? h' := by
  obtain ⟨hh, -⟩ := getElem_of_state? hs
  simp only [setState, state?]
  by_cases e : h' = h
  · subst e
    simp [hh]
  · simp [e, getElem?_set_ne (Ne.symm e)]

@[simp] theorem heap_setEntry (w : World) (h : ℕ) (sp : SpaceId) (a : U64) (x : ℕ) :
    (w.setEntry h sp a x).heap = w.heap := by
  unfold setEntry
  split <;> rfl

theorem state?_setEntry (hs : w.state? h = some s) (sp : SpaceId) (a : U64) (x : ℕ) (h' : ℕ) :
    ((w.setEntry h sp a x).state? h').isSome = (w.state? h').isSome := by
  unfold setEntry
  simp only [hs, state?_setState hs]
  by_cases e : h' = h
  · subst e
    simp [hs]
  · simp [e]

theorem entry_setEntry (hs : w.state? h = some s)
    (sp : SpaceId) (a : U64) (x : ℕ) (h' : ℕ) (sp' : SpaceId) (a' : U64) :
    (w.setEntry h sp a x).entry h' sp' a' =
      if h' = h ∧ sp' = sp ∧ a' = a then some x else w.entry h' sp' a' := by
  unfold setEntry
  simp only [hs, entry, state?_setState hs]
  by_cases e : h' = h
  · subst e
    simp only [if_true, hs, bind_some, ArcState.setSpace, OrdMap.get?_insert, true_and]
    by_cases e' : sp' = sp
    · subst e'
      simp only [if_true, bind_some, OrdMap.get?_insert, true_and, ArcState.space]
      by_cases e'' : a' = a
      · simp [e'']
      · simp only [e'', if_false]
        cases s.spaces.get? sp' <;> simp
    · simp [e']
  · simp [e]

theorem entry_getSpaceMut (w : World) (h : ℕ) (sp : SpaceId) (h' : ℕ) (sp' : SpaceId)
    (a' : U64) : (w.getSpaceMut h sp).entry h' sp' a' = w.entry h' sp' a' := by
  unfold getSpaceMut
  cases hs : w.state? h with
  | none => rfl
  | some s =>
    simp only [entry, state?_setState hs]
    by_cases e : h' = h
    · subst e
      simp only [if_true, hs, bind_some, ArcState.setSpace, OrdMap.get?_insert]
      by_cases e' : sp' = sp
      · subst e'
        cases hg : s.spaces.get? sp' <;> simp [ArcState.space, hg]
      · simp [e']
    · simp [e]

theorem counted_getSpaceMut (hc : w.Counted) (h : ℕ) (sp : SpaceId) :
    (w.getSpaceMut h sp).Counted := by
  intro l
  unfold getSpaceMut
  cases hs : w.state? h with
  | none => exact hc l
  | some s =>
    obtain ⟨hh, he⟩ := getElem_of_state? hs
    have h1 := count_refs_set hh (some (s.setSpace sp (s.space sp))) l
    have h2 := count_refs_setSpace s sp (s.space sp) l
    have h3 := hc l
    simp only [he, map_some, getD_some] at h1
    simp only [refs, setState, strong] at h3 ⊢
    omega

theorem lt_heap_of_mem_refs (hc : w.Counted) (hl : l ∈ w.refs) : l < w.heap.length := by
  have h := hc l
  have hpos := count_pos_iff.mpr hl
  by_contra hn
  simp [strong, getElem?_eq_none (not_lt.mp hn)] at h
  omega

theorem entry_unique (hc : w.Counted) {h h' : ℕ} {sp' : SpaceId} {a' : U64}
    (he : w.entry h sp a = some l) (he' : w.entry h' sp' a' = some l)
    (h1 : w.strong l = 1) : h' = h ∧ sp' = sp ∧ a' = a := by
  by_contra hne
  obtain ⟨s, hs⟩ : ∃ s, w.state? h = some s := by
    cases hs : w.state? h with
    | none => simp [entry, hs] at he
    | some s => exact ⟨s, rfl⟩
  -- moving the first entry away would leave the second pointing at an uncounted page
  have hcount := count_refs_setEntry hs sp a (l + 1) l
  have hkeep : (w.setEntry h sp a (l + 1)).entry h' sp' a' = some l := by
    rw [entry_setEntry hs, if_neg hne, he']
  have hpos := count_pos_iff.mpr (mem_refs_of_entry hkeep)
  have := hc l
  rw [if_pos he, if_neg (by omega)] at hcount
  omega

/-- After `entry(..).or_insert_with(..)` the entry exists and every page reads as before,
a missing one as zero. -/
theorem orInsertZero_spec (hc : w.Counted) (hs : w.state? h = some s) (sp : SpaceId) (a : U64) :
    let r := w.orInsertZero h sp a
    r.1.Counted ∧ (∃ s', r.1.state? h = some s') ∧ r.1.entry h sp a = some r.2 ∧
      (∀ h' sp' a', r.1.page h' sp' a' =
        if h' = h ∧ sp' = sp ∧ a' = a then some ((w.page h sp a).getD zeroPage)
        else w.page h' sp' a') ∧
      ∀ h', (r.1.state? h').isSome = (w.state? h').isSome := by
  intro r
  cases he : w.entry h sp a with
  | some l =>
    simp only [r, orInsertZero, he]
    have hlt := lt_heap_of_mem_refs hc (mem_refs_of_entry he)
    refine ⟨hc, ⟨s, hs⟩, trivial, fun h' sp' a' => ?_, fun _ => trivial⟩
    by_cases e : h' = h ∧ sp' = sp ∧ a' = a
    · obtain ⟨rfl, rfl, rfl⟩ := e
      simp [page, he, hlt]
    · rw [if_neg e]
  | none =>
    simp only [r, orInsertZero, he]
    set w' : World := ⟨w.heap ++ [⟨zeroPage, 1⟩], w.states⟩ with hw'
    have hs' : w'.state? h = some s := hs
    have hrefs : w'.refs = w.refs := rfl
    have hent : ∀ h' sp' a', w'.entry h' sp' a' = w.entry h' sp' a' := fun _ _ _ => rfl
    have hnew : w.heap.length ∉ w.refs := fun hm => lt_irrefl _ (lt_heap_of_mem_refs hc hm)
    refine ⟨fun l => ?_, ?_, ?_, fun h' sp' a' => ?_, fun h' => ?_⟩
    · have hcount := count_refs_setEntry hs' sp a w.heap.length l
      have hold := hc l
      rw [hent, he, hrefs] at hcount
      simp only [reduceCtorEq, if_false, zero_add] at hcount
      have hstrong : (w'.setEntry h sp a w.heap.length).strong l = w'.strong l := by
        simp only [strong, heap_setEntry]
      rw [hcount, hstrong]
      simp only [strong, hw', getElem?_append] at hold ⊢
      by_cases e : w.heap.length = l
      · subst e
        simp [count_eq_zero.mpr hnew]
      · rw [if_neg e, zero_add, hold]
        split
        · rfl
        · next hge =>
          rw [getElem?_eq_none (by omega), getElem?_eq_none (by simp; omega)]
    · have := state?_setEntry hs' sp a w.heap.length h
      rw [hs'] at this
      exact isSome_iff_exists.mp (by simpa using this)
    · rw [entry_setEntry hs', if_pos ⟨rfl, rfl, rfl⟩]
    · simp only [page, entry_setEntry hs', heap_setEntry]
      split
      · simp [he, hw']
      · rw [hent]
        cases hl : w.entry h' sp' a' with
        | none => rfl
        | some l =>
          have hlt := lt_heap_of_mem_refs hc (mem_refs_of_entry hl)
          simp [hw', getElem?_append, hlt]
    · rw [state?_setEntry hs']
      rfl

/-- What a write through `Arc::make_mut` does to every state's pages. -/
theorem makeMut_spec (hc : w.Counted) (hs : w.state? h = some s) (he : w.entry h sp a = some l)
    (f : Page → Page) : let w' := w.makeMut h sp a l f
    w'.Counted ∧ (∀ h' sp' a', w'.page h' sp' a' =
        if h' = h ∧ sp' = sp ∧ a' = a then (w.page h sp a).map f else w.page h' sp' a') ∧
      ∀ h', (w'.state? h').isSome = (w.state? h').isSome := by
  intro w'
  have hlt := lt_heap_of_mem_refs hc (mem_refs_of_entry he)
  have hcell : w.heap[l]? = some w.heap[l] := getElem?_eq_getElem hlt
  have hpg : w.page h sp a = some w.heap[l].page := by simp [page, he, hcell]
  have hstrong : w.strong l = w.heap[l].strong := by simp [strong, hcell]
  simp only [w', makeMut, hcell]
  split
  · next hone =>
    refine ⟨fun k => ?_, fun h' sp' a' => ?_, fun _ => rfl⟩
    · have hold := hc k
      simp only [strong, refs] at hold ⊢
      rw [hold]
      by_cases e : k = l
      · subst e
        simp [hlt, hone]
      · simp [getElem?_set_ne (Ne.symm e)]
    · split
      · next e =>
        obtain ⟨rfl, rfl, rfl⟩ := e
        have he' : entry ⟨w.heap.set l ⟨f w.heap[l].page, 1⟩, w.states⟩ h' sp' a' = some l := he
        rw [hpg]
        simp [page, he', hlt]
      · next hne =>
        have hent : entry ⟨w.heap.set l ⟨f w.heap[l].page, 1⟩, w.states⟩ h' sp' a' =
          w.entry h' sp' a' := rfl
        simp only [page, hent]
        cases hl : w.entry h' sp' a' with
        | none => rfl
        | some k =>
          have hk : l ≠ k := fun hk => hne (entry_unique hc he (hk ▸ hl) (hstrong.trans hone))
          simp [getElem?_set_ne hk]
  · next hne1 =>
    set w₁ : World := ⟨w.heap.set l ⟨w.heap[l].page, w.heap[l].strong - 1⟩ ++
      [⟨f w.heap[l].page, 1⟩], w.states⟩ with hw₁
    have hs₁ : w₁.state? h = some s := hs
    have hent : ∀ h' sp' a', w₁.entry h' sp' a' = w.entry h' sp' a' := fun _ _ _ => rfl
    have hrefs : w₁.refs = w.refs := rfl
    have hnew : w.heap.length ∉ w.refs := fun hm => lt_irrefl _ (lt_heap_of_mem_refs hc hm)
    refine ⟨fun k => ?_, fun h' sp' a' => ?_, fun h' => ?_⟩
    · have hcount := count_refs_setEntry hs₁ sp a w.heap.length k
      have hold := hc k
      rw [hent, he, hrefs] at hcount
      have hs' : (w₁.setEntry h sp a w.heap.length).strong k = w₁.strong k := by
        simp only [strong, heap_setEntry]
      rw [hs']
      simp only [strong, hw₁, getElem?_append, length_set, some.injEq] at hold hcount ⊢
      by_cases e : w.heap.length = k
      · subst e
        have := count_eq_zero.mpr hnew
        have hl : l ≠ w.heap.length := by omega
        simp only [hl, if_false, if_true] at hcount
        simp
        omega
      · by_cases e' : l = k
        · subst e'
          have hpos := count_pos_iff.mpr (mem_refs_of_entry he)
          simp only [if_true, e, if_false] at hcount
          simp [hlt] at hold ⊢
          omega
        · simp only [e, e', if_false] at hcount
          by_cases hk : k < w.heap.length
          · simp only [hk, if_true, getElem?_set_ne e']
            omega
          · rw [getElem?_eq_none (by omega)] at hold
            simp only [hk, if_false]
            rw [getElem?_eq_none (by simp; omega)]
            omega
    · simp only [page, entry_setEntry hs₁, heap_setEntry]
      split
      · simp [hw₁, he, hcell]
      · rw [hent]
        cases hl : w.entry h' sp' a' with
        | none => rfl
        | some k =>
          have hk := lt_heap_of_mem_refs hc (mem_refs_of_entry hl)
          simp only [hw₁, bind_some, getElem?_append, length_set, hk, if_true]
          by_cases e' : l = k
          · subst e'
            simp [hlt]
          · rw [getElem?_set_ne e']
    · rw [state?_setEntry hs₁]
      rfl

theorem pageMut_spec (hc : w.Counted) (hl : (w.state? h).isSome)
    (sp : SpaceId) (a : U64) (f : Page → Page) :
    (w.pageMut h sp a f).Counted ∧ (∀ h' sp' a', (w.pageMut h sp a f).page h' sp' a' =
        if h' = h ∧ sp' = sp ∧ a' = a then some (f ((w.page h sp a).getD zeroPage))
        else w.page h' sp' a') ∧
      ∀ h', ((w.pageMut h sp a f).state? h').isSome = (w.state? h').isSome := by
  obtain ⟨s, hs⟩ := isSome_iff_exists.mp hl
  obtain ⟨hc₁, ⟨s₁, hs₁⟩, he₁, hp₁, hl₁⟩ := orInsertZero_spec hc hs sp a
  obtain ⟨hc₂, hp₂, hl₂⟩ := makeMut_spec hc₁ hs₁ he₁ f
  refine ⟨hc₂, fun h' sp' a' => ?_, fun h' => (hl₂ h').trans (hl₁ h')⟩
  have := hp₂ h' sp' a'
  simp only [pageMut]
  rw [this]
  split
  · rw [hp₁, if_pos ⟨rfl, rfl, rfl⟩, map_some]
  · next hne => rw [hp₁, if_neg hne]

theorem length_setEntry (w : World) (h : ℕ) (sp : SpaceId) (a : U64) (x : ℕ) :
    (w.setEntry h sp a x).states.length = w.states.length := by
  unfold setEntry
  split <;> simp [setState]

theorem length_pageMut (w : World) (h : ℕ) (sp : SpaceId) (a : U64) (f : Page → Page) :
    (w.pageMut h sp a f).states.length = w.states.length := by
  have h₁ : (w.orInsertZero h sp a).1.states.length = w.states.length := by
    unfold orInsertZero
    split <;> simp [length_setEntry]
  simp only [pageMut, makeMut]
  split
  · split <;> simp [length_setEntry, h₁]
  · exact h₁

/-- One state is being changed: the counts are exact and no other state reads differently
from the world the change started in. -/
structure Framed (w₀ : World) (h : ℕ) (w : World) : Prop where
  counted : w.Counted
  live : (w.state? h).isSome
  others : ∀ h', h' ≠ h → ∀ sp a, w.page h' sp a = w₀.page h' sp a
  lives : ∀ h', (w.state? h').isSome = (w₀.state? h').isSome
  length : w.states.length = w₀.states.length

theorem Framed.refl (hc : w.Counted) (hl : (w.state? h).isSome) : Framed w h w :=
  ⟨hc, hl, fun _ _ _ _ => rfl, fun _ => rfl, rfl⟩

theorem state?_getSpaceMut (w : World) (h : ℕ) (sp : SpaceId) (h' : ℕ) :
    ((w.getSpaceMut h sp).state? h').isSome = (w.state? h').isSome := by
  unfold getSpaceMut
  cases hs : w.state? h with
  | none => rfl
  | some s =>
    by_cases e : h' = h
    · subst e
      simp [state?_setState hs, hs]
    · simp [state?_setState hs, e]

theorem page_getSpaceMut (w : World) (h : ℕ) (sp : SpaceId) (h' : ℕ) (sp' : SpaceId) (a : U64) :
    (w.getSpaceMut h sp).page h' sp' a = w.page h' sp' a := by
  have hheap : (w.getSpaceMut h sp).heap = w.heap := by
    unfold getSpaceMut
    split <;> rfl
  simp only [page, entry_getSpaceMut, hheap]

theorem access_lawful (w₀ : World) (h : ℕ) : (access h).Lawful (Framed w₀ h) where
  inv_getSpaceMut {w} sp hw :=
    { counted := counted_getSpaceMut hw.counted h sp
      live := by simpa only [access, state?_getSpaceMut] using hw.live
      others := fun h' hne sp' a => (page_getSpaceMut w h sp h' sp' a).trans (hw.others h' hne sp' a)
      lives := fun h' => (state?_getSpaceMut w h sp h').trans (hw.lives h')
      length := by
        refine Eq.trans ?_ hw.length
        simp only [access, getSpaceMut]
        split <;> simp [setState] }
  inv_pageMut {w} sp a f hw := by
    obtain ⟨hc, hp, hl⟩ := pageMut_spec hw.counted hw.live sp a f
    refine ⟨hc, (hl h).trans hw.live, fun h' hne sp' a' => ?_, fun h' => (hl h').trans (hw.lives h'),
      (length_pageMut w h sp a f).trans hw.length⟩
    exact (hp h' sp' a').trans ((if_neg fun e => hne e.1).trans (hw.others h' hne sp' a'))
  page_getSpaceMut {w} sp sp' a _ := page_getSpaceMut w h sp h sp' a
  page_pageMut {w} sp a f sp' a' hw := by
    have := (pageMut_spec hw.counted hw.live sp a f).2.1 h sp' a'
    simpa only [access, true_and] using this

def flat (w : World) : List (Option (SpaceId → U64 → Byte)) :=
  (List.range w.states.length).map fun h => (w.state? h).map fun _ => (access h).byte w

theorem getElem?_flat (w : World) (h : ℕ) :
    ((w.flat)[h]?).join = (w.state? h).map fun _ => (access h).byte w := by
  by_cases hh : h < w.states.length
  · simp [flat, hh]
  · simp [flat, hh, state?]

theorem Framed.flat_eq {w u : World} (hu : Framed w h u) {m : SpaceId → U64 → Byte}
    (hm : (access h).byte u = m) : u.flat = (w.flat).modify h (Option.map fun _ => m) := by
  apply ext_getElem
  · simp [flat, hu.length]
  · intro k hk _
    have hlen : k < w.states.length := by simpa [flat, hu.length] using hk
    have hlive := hu.lives k
    simp only [flat, getElem_map, getElem_range, getElem_modify]
    by_cases e : h = k
    · subst e
      rw [if_pos rfl, hm]
      cases hs : u.state? h <;> cases hs' : w.state? h <;> simp [hs, hs'] at hlive ⊢
    · have hbyte : (access k).byte u = (access k).byte w := by
        funext sp a
        simp only [PageAccess.byte, access, hu.others k (Ne.symm e)]
      rw [if_neg e, hbyte]
      cases hs : u.state? k <;> cases hs' : w.state? k <;> simp [hs, hs'] at hlive ⊢

end World

/-- The operations on emulator states; `h` numbers the states in the order they were made. -/
inductive MemOp where
  | writeVarnode (h : ℕ) (vn : VarnodeData) (value : U64)
  | writeWide (h : ℕ) (vn : VarnodeData) (value : U128)
  | writeMemory (h : ℕ) (address : U64) (size : ℕ) (value : U64)
  | writeRegister (h : ℕ) (offset : U64) (size : ℕ) (value : U64)
  | loadMemoryBytes (h : ℕ) (address : U64) (data : List Byte)
  | clone (h : ℕ)
  | drop (h : ℕ)

namespace World

def whenLive (w : World) (h : ℕ) (f : World → World) : World :=
  if (w.state? h).isSome then f w else w

def step (w : World) : MemOp → World
  | .writeVarnode h vn value => w.whenLive h ((access h).writeVarnode · vn value)
  | .writeWide h vn value => w.whenLive h ((access h).writeWide · vn value)
  | .writeMemory h address size value => w.whenLive h ((access h).writeMemory · address size value)
  | .writeRegister h offset size value => w.whenLive h ((access h).writeRegister · offset size value)
  | .loadMemoryBytes h address data => w.whenLive h ((access h).loadMemoryBytes · address data)
  | .clone h => w.clone h
  | .drop h => w.drop h

def init : World := ⟨[], [some ArcState.new]⟩

/-- A run from one fresh `EmulatorState::new()`. -/
def run (ops : List MemOp) : World := ops.foldl step init

def readVarnode? (w : World) (h : ℕ) (vn : VarnodeData) : Option U64 :=
  (w.state? h).map fun _ => (access h).readVarnode w vn

def readWide? (w : World) (h : ℕ) (vn : VarnodeData) : Option U128 :=
  (w.state? h).map fun _ => (access h).readWide w vn

end World

def MemOp.store? : MemOp → Option (ℕ × SpaceId × U64 × List Byte)
  | .writeVarnode h vn value => some (h, vn.space, vn.offset, toLeBytes (min vn.size 8) value)
  | .writeWide h vn value => some (h, vn.space, vn.offset, toLeBytes (min vn.size 16) value)
  | .writeMemory h address size value =>
    some (h, .ram, address, toLeBytes (min size 8) value)
  | .writeRegister h offset size value =>
    some (h, .register, offset, toLeBytes (min size 8) value)
  | .loadMemoryBytes h address data => some (h, .ram, address, data)
  | .clone _ => none
  | .drop _ => none

/-- The abstract machine: every state owns a byte map, initially zero, changed only by
byte-by-byte stores; a clone is a copy. -/
def flatStep (fs : List (Option (SpaceId → U64 → Byte))) (op : MemOp) :
    List (Option (SpaceId → U64 → Byte)) :=
  match op.store? with
  | some (h, sp, a, bytes) => fs.modify h (Option.map (PageAccess.stored · sp a bytes))
  | none =>
    match op with
    | .clone h => match (fs[h]?).join with
      | some m => fs ++ [some m]
      | none => fs
    | .drop h => fs.set h none
    | _ => fs

def flatRun (ops : List MemOp) : List (Option (SpaceId → U64 → Byte)) :=
  ops.foldl flatStep [some fun _ _ => 0]

namespace World

variable {w : World}

theorem whenLive_sim (hc : w.Counted) {h : ℕ} {f : World → World} {bytes : List Byte}
    (hf : (w.state? h).isSome → Framed w h (f w) ∧
    (access h).byte (f w) = PageAccess.stored ((access h).byte w) sp a bytes) :
    (w.whenLive h f).Counted ∧
      (w.whenLive h f).flat = (w.flat).modify h (Option.map (PageAccess.stored · sp a bytes)) := by
  unfold whenLive
  by_cases hl : (w.state? h).isSome
  · obtain ⟨hfr, hb⟩ := hf hl
    rw [if_pos hl]
    refine ⟨hfr.counted, ?_⟩
    rw [hfr.flat_eq hb]
    apply ext_getElem
    · simp
    · intro k hk _
      simp only [getElem_modify]
      by_cases e : h = k
      · subst e
        obtain ⟨s, hs⟩ := isSome_iff_exists.mp hl
        simp [flat, hs]
      · simp [e]
  · rw [if_neg hl]
    refine ⟨hc, ?_⟩
    apply ext_getElem
    · simp
    · intro k hk _
      simp only [getElem_modify]
      by_cases e : h = k
      · subst e
        rw [if_pos rfl]
        simp [flat, not_isSome_iff_eq_none.mp hl]
      · simp [e]

theorem strong_mapIdx (w : World) (g : ℕ → ArcCell → ℕ) (states : List (Option ArcState)) (l : ℕ) :
    strong ⟨w.heap.mapIdx fun l c => ⟨c.page, g l c⟩, states⟩ l =
      ((w.heap[l]?).map (g l)).getD 0 := by
  simp only [strong, List.getElem?_mapIdx, Option.map_map]
  rfl

theorem count_refs_le {h : ℕ} {s : ArcState} (hs : w.state? h = some s) (l : ℕ) :
    s.refs.count l + (refs ⟨w.heap, w.states.set h none⟩).count l = w.refs.count l := by
  obtain ⟨hh, he⟩ := getElem_of_state? hs
  have := count_refs_set hh none l
  simpa [he, refs] using this

theorem byte_eq_of_state? {u : World} {h k : ℕ}
    (hp : ∀ l : ℕ, (u.heap[l]?).map ArcCell.page = (w.heap[l]?).map ArcCell.page)
    (hs : u.state? k = w.state? h) : (access k).byte u = (access h).byte w := by
  funext sp a
  simp only [PageAccess.byte, access, page, entry, hs, hp]

theorem pages_mapIdx (w : World) (g : ℕ → ArcCell → ℕ) (l : ℕ) :
    ((w.heap.mapIdx fun l c => (⟨c.page, g l c⟩ : ArcCell))[l]?).map ArcCell.page =
      (w.heap[l]?).map ArcCell.page := by
  simp only [List.getElem?_mapIdx, Option.map_map]
  rfl

theorem clone_sim (hc : w.Counted) (h : ℕ) :
    (w.clone h).Counted ∧ (w.clone h).flat = flatStep w.flat (.clone h) := by
  cases hs : w.state? h with
  | none => simpa [clone, hs, flatStep, MemOp.store?, getElem?_flat] using hc
  | some s =>
    obtain ⟨-, -⟩ := getElem_of_state? hs
    set u : World := ⟨w.heap.mapIdx fun l c => ⟨c.page, c.strong + s.refs.count l⟩,
      w.states ++ [some s]⟩ with hu
    have hclone : w.clone h = u := by simp only [clone, hs, hu]
    have hold : ∀ k, k < w.states.length → u.state? k = w.state? k := fun k hk => by
      simp [hu, state?, getElem?_append, hk]
    have hlast : u.state? w.states.length = some s := by simp [hu, state?]
    rw [hclone]
    constructor
    · intro l
      have h1 := count_refs_le hs l
      have h2 := hc l
      have h3 : u.refs.count l = w.refs.count l + s.refs.count l := by
        simp [hu, refs, count_append]
      rw [h3, hu, strong_mapIdx w (fun l c => c.strong + s.refs.count l)]
      simp only [strong] at h2
      cases hcell : w.heap[l]? with
      | none => simp [hcell] at h2 ⊢; omega
      | some c => simp [hcell] at h2 ⊢; omega
    · have hflat : flatStep w.flat (.clone h) = w.flat ++ [some ((access h).byte w)] := by
        simp only [flatStep, MemOp.store?, getElem?_flat, hs, map_some]
      have hlen : u.states.length = w.states.length + 1 := by simp [hu]
      rw [hflat, flat, hlen, range_succ, map_append, flat]
      congr 1
      · apply map_congr_left
        intro k hk
        have hk := hold k (mem_range.mp hk)
        rw [hk, byte_eq_of_state? (pages_mapIdx w _) hk]
      · simp only [map_cons, map_nil, hlast, map_some]
        rw [byte_eq_of_state? (w := w) (h := h) (pages_mapIdx w _) (hlast.trans hs.symm)]

theorem drop_sim (hc : w.Counted) (h : ℕ) :
    (w.drop h).Counted ∧ (w.drop h).flat = flatStep w.flat (.drop h) := by
  cases hs : w.state? h with
  | none =>
    have hset : (w.flat).set h none = w.flat := by
      apply ext_getElem
      · simp
      · intro k hk hk'
        rw [getElem_set]
        split
        · next e =>
          subst e
          simp [flat, hs]
        · rfl
    simpa [drop, hs, flatStep, MemOp.store?, hset] using hc
  | some s =>
    obtain ⟨hh, -⟩ := getElem_of_state? hs
    set u : World := ⟨w.heap.mapIdx fun l c => ⟨c.page, c.strong - s.refs.count l⟩,
      w.states.set h none⟩ with hu
    have hdrop : w.drop h = u := by simp only [drop, hs, hu]
    rw [hdrop]
    constructor
    · intro l
      have h1 := count_refs_le hs l
      have h2 := hc l
      have h3 : u.refs = refs ⟨w.heap, w.states.set h none⟩ := rfl
      rw [h3, hu, strong_mapIdx w (fun l c => c.strong - s.refs.count l)]
      simp only [strong] at h2
      cases hcell : w.heap[l]? with
      | none => simp [hcell] at h2 ⊢; omega
      | some c => simp [hcell] at h2 ⊢; omega
    · apply ext_getElem
      · simp [flat, flatStep, MemOp.store?, hu]
      · intro k hk hk'
        simp only [flatStep, MemOp.store?, getElem_set]
        by_cases e : h = k
        · subst e
          simp [flat, hu, state?, hh]
        · have hst : u.state? k = w.state? k := by
            simp [hu, state?, getElem?_set_ne e]
          simp only [e, if_false, flat, getElem_map, getElem_range]
          rw [hst, byte_eq_of_state? (pages_mapIdx w _) hst]

theorem step_sim (hc : w.Counted) (op : MemOp) :
    (w.step op).Counted ∧ (w.step op).flat = flatStep w.flat op := by
  have L := fun h => access_lawful w h
  cases op with
  | writeVarnode h vn value =>
    exact whenLive_sim hc fun hl => (L h).writeVarnode_spec (Framed.refl hc hl) vn value
  | writeWide h vn value =>
    exact whenLive_sim hc fun hl => (L h).writeWide_spec (Framed.refl hc hl) vn value
  | writeMemory h address size value =>
    exact whenLive_sim hc fun hl => (L h).writeVarnode_spec (Framed.refl hc hl) _ value
  | writeRegister h offset size value =>
    exact whenLive_sim hc fun hl => (L h).writeVarnode_spec (Framed.refl hc hl) _ value
  | loadMemoryBytes h address data =>
    refine whenLive_sim hc fun hl => ?_
    have hf := (L h).inv_getSpaceMut .ram (Framed.refl hc hl)
    obtain ⟨hi, hb⟩ := (L h).writeBytes_spec hf .ram address data
    exact ⟨hi, hb.trans (by rw [(L h).byte_getSpaceMut (Framed.refl hc hl)])⟩
  | clone h => exact clone_sim hc h
  | drop h => exact drop_sim hc h

theorem run_sim (ops : List MemOp) : (run ops).Counted ∧ (run ops).flat = flatRun ops := by
  have key : ∀ (w : World) (fs), w.Counted → w.flat = fs →
      (ops.foldl step w).Counted ∧ (ops.foldl step w).flat = ops.foldl flatStep fs := by
    induction ops with
    | nil => intro w fs hc hf; exact ⟨hc, hf⟩
    | cons op ops ih =>
      intro w fs hc hf
      obtain ⟨hc', hf'⟩ := step_sim hc op
      exact ih (w.step op) (flatStep fs op) hc' (by rw [hf', hf])
  refine key init _ ?_ ?_
  · intro l
    simp [init, refs, ArcState.new, ArcState.refs, strong]
  · rfl

theorem readVarnode?_eq (w : World) (h : ℕ) {vn : VarnodeData} (hc : vn.space ≠ .const) :
    w.readVarnode? h vn = ((w.flat)[h]?).join.map fun m =>
      BitVec.ofNat 64 (leNat (loadBytes (m vn.space) vn.offset (min vn.size 8))) := by
  rw [getElem?_flat, readVarnode?, Option.map_map]
  cases w.state? h with
  | none => rfl
  | some s => exact congrArg some (PageAccess.readVarnode_eq hc w)

theorem readWide?_eq (w : World) (h : ℕ) {vn : VarnodeData} (hc : vn.space ≠ .const) :
    w.readWide? h vn = ((w.flat)[h]?).join.map fun m =>
      BitVec.ofNat 128 (leNat (loadBytes (m vn.space) vn.offset (min vn.size 16))) := by
  rw [getElem?_flat, readWide?, Option.map_map]
  cases w.state? h with
  | none => rfl
  | some s => exact congrArg some (PageAccess.readWide_eq hc w)

theorem flatStep_frame {fs : List (Option (SpaceId → U64 → Byte))} {op : MemOp} {h h' : ℕ}
    {sp' : SpaceId} {bytes : List Byte}
    (hop : op.store? = some (h', sp', a, bytes)) (hne : h' ≠ h ∨ sp' ≠ sp) :
    ((flatStep fs op)[h]?).join.map (· sp) = ((fs[h]?).join).map (· sp) := by
  simp only [flatStep, hop, getElem?_modify]
  cases fs[h]? with
  | none => rfl
  | some o =>
    by_cases e : h' = h
    · have hsp : sp ≠ sp' := fun h0 => (hne.resolve_left (not_not.mpr e)) h0.symm
      cases o <;> simp [e, PageAccess.stored, hsp]
    · cases o <;> simp [e]

/-- After any operations a state reads the bytes stored in it, unshared, and an operation on
another state or space leaves what it reads. -/
theorem paged_memory_refines_flat_bytes (ops : List MemOp) (h : ℕ) (vn : VarnodeData)
    (hc : vn.space ≠ .const) :
    (vn.size ≤ 8 → (run ops).readVarnode? h vn = ((flatRun ops)[h]?).join.map fun m =>
      BitVec.ofNat 64 (leNat (loadBytes (m vn.space) vn.offset vn.size))) ∧
    (vn.size ≤ 16 → (run ops).readWide? h vn = ((flatRun ops)[h]?).join.map fun m =>
      BitVec.ofNat 128 (leNat (loadBytes (m vn.space) vn.offset vn.size))) ∧
    ∀ op h' sp a bytes, MemOp.store? op = some (h', sp, a, bytes) → h' ≠ h ∨ sp ≠ vn.space →
      (run (ops ++ [op])).readVarnode? h vn = (run ops).readVarnode? h vn ∧
      (run (ops ++ [op])).readWide? h vn = (run ops).readWide? h vn := by
  refine ⟨fun hsz => ?_, fun hsz => ?_, fun op h' sp a bytes hop hne => ?_⟩
  · rw [readVarnode?_eq _ _ hc, (run_sim ops).2, min_eq_left hsz]
  · rw [readWide?_eq _ _ hc, (run_sim ops).2, min_eq_left hsz]
  · have hf : ((flatStep (flatRun ops) op)[h]?).join.map (· vn.space) =
        (((flatRun ops)[h]?).join).map (· vn.space) := flatStep_frame hop hne
    have hrun : (run (ops ++ [op])).flat = flatStep (flatRun ops) op := by
      rw [(run_sim _).2, flatRun, foldl_append]
      rfl
    rw [readVarnode?_eq _ _ hc, readVarnode?_eq _ _ hc, readWide?_eq _ _ hc, readWide?_eq _ _ hc,
      hrun, (run_sim ops).2]
    constructor
    · have := congrArg (Option.map fun m : U64 → Byte =>
        BitVec.ofNat 64 (leNat (loadBytes m vn.offset (min vn.size 8)))) hf
      rwa [Option.map_map, Option.map_map] at this
    · have := congrArg (Option.map fun m : U64 → Byte =>
        BitVec.ofNat 128 (leNat (loadBytes m vn.offset (min vn.size 16)))) hf
      rwa [Option.map_map, Option.map_map] at this

/-- A word written across the top of the address space, then cloned and overwritten. -/
theorem paged_memory_refines_flat_bytes_wrapping :
    let ops : List MemOp := [.writeMemory 0 (-2) 4 0xDEADBEEF, .clone 0, .writeMemory 1 0 2 0x1111]
    (run ops).readVarnode? 0 ⟨.ram, -2, 4⟩ = some 0xDEADBEEF ∧
      (run ops).readWide? 0 ⟨.ram, -2, 4⟩ = some 0xDEADBEEF ∧
      (run (ops ++ [.writeMemory 1 (-2) 4 0])).readVarnode? 0 ⟨.ram, -2, 4⟩ =
        some 0xDEADBEEF := by
  intro ops
  obtain ⟨narrow, wide, frame⟩ := paged_memory_refines_flat_bytes ops 0 ⟨.ram, -2, 4⟩ (by decide)
  have read : (run ops).readVarnode? 0 ⟨.ram, -2, 4⟩ = some 0xDEADBEEF :=
    (narrow (by decide)).trans (by decide)
  refine ⟨read, (wide (by decide)).trans (by decide), ?_⟩
  exact (frame (.writeMemory 1 (-2) 4 0) 1 _ _ _ rfl (.inl (by decide))).1.trans read

end World

end ArcPages
