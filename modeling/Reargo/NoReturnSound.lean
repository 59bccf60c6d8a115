import Reargo.NoReturnSearch

/-!
# A no-return verdict and the executions

Executions with a call stack over the code. The search that finds no exit leaves a set of
instructions which no execution leaves, when the calls it passed by never return.
-/
namespace NoReturnSound

open PcodeModel NoReturnFlow NoReturnSearch Questions List

/-- Control goes on after the instruction: it only branches conditionally. -/
def FallsThrough (f : Flow) : Prop :=
  f.trap = false ∧ ∀ e ∈ f.events, ∃ target, e = .branch false target

/-- Or it may: a conditional branch inside its own p-code skips the rest of it. -/
def MayFall (f : Flow) : Prop :=
  FallsThrough f ∨ .branch false none ∈ f.events

structure Config where
  pc : U64
  /-- The return addresses, the last one first. -/
  stack : List U64

/-- Control may leave the frame: a return, an indirect jump or no instruction. -/
inductive Leaves (cm : CodeMap) (named : U64 → Bool) (pc : U64) : Prop where
  | missing : named pc = false → cm.flow pc = none → Leaves cm named pc
  | exit (f) : named pc = false → cm.flow pc = some f → f.trap = false → .exit ∈ f.events →
      Leaves cm named pc

/-- One instruction executed; a named function is entered and never left. -/
inductive Move (cm : CodeMap) (named : U64 → Bool) (falls : Flow → Prop) :
    Config → Config → Prop where
  | branch {c} (f uncond t) : named c.pc = false → cm.flow c.pc = some f → f.trap = false →
      .branch uncond (some t) ∈ f.events → Move cm named falls c { c with pc := t }
  | call {c} (f t) : named c.pc = false → cm.flow c.pc = some f → f.trap = false →
      .call t ∈ f.events → Move cm named falls c ⟨t, f.next :: c.stack⟩
  | fall {c} (f) : named c.pc = false → cm.flow c.pc = some f → falls f →
      Move cm named falls c { c with pc := f.next }
  | ret (pc r stack) : Leaves cm named pc → Move cm named falls ⟨pc, r :: stack⟩ ⟨r, stack⟩

/-- Some execution from `t` returns from its frame. -/
def ReturnsFrom (cm : CodeMap) (named : U64 → Bool) (falls : Flow → Prop) (t : U64) : Prop :=
  ∃ pc, Relation.ReflTransGen (Move cm named falls) ⟨t, []⟩ ⟨pc, []⟩ ∧ Leaves cm named pc

theorem returnsFrom_mono {cm : CodeMap} {named : U64 → Bool} {falls falls' : Flow → Prop} {t : U64}
    (hfalls : ∀ a f, cm.flow a = some f → falls f → falls' f)
    (h : ReturnsFrom cm named falls t) : ReturnsFrom cm named falls' t := by
  obtain ⟨pc, hpath, hleaves⟩ := h
  refine ⟨pc, Relation.ReflTransGen.mono (fun c d hmove => ?_) _ _ hpath, hleaves⟩
  cases hmove with
  | branch f uncond t hn hf htrap he => exact .branch f uncond t hn hf htrap he
  | call f t hn hf htrap he => exact .call f t hn hf htrap he
  | fall f hn hf hfall => exact .fall f hn hf (hfalls _ f hf hfall)
  | ret pc r stack hl => exact .ret pc r stack hl

/-- Execution at an address can leave its frame, passing calls that can return. -/
inductive Returns (cm : CodeMap) (named : U64 → Bool) (falls : Flow → Prop) : U64 → Prop where
  | leaves {pc} : Leaves cm named pc → Returns cm named falls pc
  | branch {pc f uncond t} : named pc = false → cm.flow pc = some f → f.trap = false →
      .branch uncond (some t) ∈ f.events → Returns cm named falls t → Returns cm named falls pc
  | call {pc f t} : named pc = false → cm.flow pc = some f → f.trap = false →
      .call t ∈ f.events → Returns cm named falls t → Returns cm named falls f.next →
        Returns cm named falls pc
  | fall {pc f} : named pc = false → cm.flow pc = some f → falls f →
      Returns cm named falls f.next → Returns cm named falls pc

section Executions

variable {cm : CodeMap} {named : U64 → Bool} {falls : Flow → Prop}

theorem returns_of_path {c : Config} {pc : U64}
    (h : Relation.ReflTransGen (Move cm named falls) c ⟨pc, []⟩) (hl : Leaves cm named pc) :
    Returns cm named falls c.pc ∧ ∀ r ∈ c.stack, Returns cm named falls r := by
  induction h using Relation.ReflTransGen.head_induction_on with
  | refl => exact ⟨.leaves hl, fun r hr => absurd hr not_mem_nil⟩
  | head hmove _ ih =>
    obtain ⟨hpc, hstack⟩ := ih
    cases hmove with
    | branch f uncond t hn hf htrap he => exact ⟨.branch hn hf htrap he hpc, hstack⟩
    | call f t hn hf htrap he =>
      have hnext := hstack f.next mem_cons_self
      exact ⟨.call hn hf htrap he hpc hnext, fun r hr => hstack r (mem_cons_of_mem _ hr)⟩
    | fall f hn hf hfall => exact ⟨.fall hn hf hfall hpc, hstack⟩
    | ret pc r stack hleaves =>
      refine ⟨.leaves hleaves, fun r' hr' => ?_⟩
      rcases mem_cons.mp hr' with rfl | hr'
      · exact hpc
      · exact hstack r' hr'

theorem returns_of_returnsFrom {t : U64} (h : ReturnsFrom cm named falls t) :
    Returns cm named falls t := by
  obtain ⟨pc, hpath, hleaves⟩ := h
  exact (returns_of_path hpath hleaves).1

theorem not_returns_of_named {t : U64} (h : named t = true) : ¬ Returns cm named falls t := by
  intro hr
  have hfalse : named t = false := by
    cases hr with
    | leaves hl => cases hl <;> assumption
    | branch hn _ _ _ _ => exact hn
    | call hn _ _ _ _ _ => exact hn
    | fall hn _ _ _ => exact hn
  rw [h] at hfalse
  cases hfalse

end Executions

/-- The instruction at the address is visited or waits in the queue. -/
def Reached (s : State) (a : U64) : Prop :=
  ∃ i f, s.insns[i]? = some f ∧ f.address = a ∧ (i ∈ s.seen ∨ .insn i ∈ s.queue)

/-- Wherever control goes from the instruction, the search goes too, past a call that is not
`good`. -/
structure Handled (named : U64 → Bool) (good : U64 → Prop) (s : State) (f : Flow) : Prop where
  exit : .exit ∉ f.events
  branch : ∀ uncond t, .branch uncond (some t) ∈ f.events → named t = true ∨ Reached s t
  call : ∀ t, .call t ∈ f.events →
    named t = true ∨ good t ∨ Reached s f.next ∨ .call t f.next ∈ s.queue
  fall : FallsThrough f → named f.next = true ∨ Reached s f.next

structure Closing (cm : CodeMap) (named : U64 → Bool) (good : U64 → Prop) (s : State) : Prop where
  flow : ∀ f ∈ s.insns, cm.flow f.address = some f
  seen : ∀ i ∈ s.seen, ∃ f, s.insns[i]? = some f ∧ (f.trap = true ∨ Handled named good s f)

/-- What is reached stays so, and a waiting call waits, is passed or is `good`. -/
structure Onto (good : U64 → Prop) (s s' : State) : Prop where
  reached : ∀ a, Reached s a → Reached s' a
  call : ∀ t fall, .call t fall ∈ s.queue → good t ∨ Reached s' fall ∨ .call t fall ∈ s'.queue
  insns : s.insns <+: s'.insns

section Search

variable {cm : CodeMap} {named : U64 → Bool} {good : U64 → Prop}

theorem Onto.refl (s : State) : Onto good s s :=
  ⟨fun _ h => h, fun _ _ h => .inr (.inr h), prefix_rfl⟩

theorem Onto.trans {s s' s'' : State} (h : Onto good s s') (h' : Onto good s' s'') :
    Onto good s s'' := by
  refine ⟨fun a ha => h'.reached a (h.reached a ha), fun t fall hq => ?_, h.insns.trans h'.insns⟩
  rcases h.call t fall hq with hgood | hreached | hq'
  · exact .inl hgood
  · exact .inr (.inl (h'.reached fall hreached))
  · exact h'.call t fall hq'

theorem Handled.onto {s s' : State} {f : Flow} (h : Handled named good s f)
    (ho : Onto good s s') : Handled named good s' f := by
  refine ⟨h.exit, fun uncond t ht => (h.branch uncond t ht).imp_right (ho.reached t),
    fun t ht => ?_, fun hf => (h.fall hf).imp_right (ho.reached f.next)⟩
  rcases h.call t ht with hnamed | hgood | hreached | hq
  · exact .inl hnamed
  · exact .inr (.inl hgood)
  · exact .inr (.inr (.inl (ho.reached _ hreached)))
  · exact .inr (ho.call t f.next hq)

theorem onto_of_queue {seen seen' : List ℕ} {insns insns' : List Flow} {queue queue' : List Item}
    (hpre : insns <+: insns') (hseen : ∀ i ∈ seen, i ∈ seen')
    (hqueue : ∀ i, .insn i ∈ queue → i ∈ seen' ∨ .insn i ∈ queue')
    (hcall : ∀ t fall, .call t fall ∈ queue →
      good t ∨ Reached ⟨seen', insns', queue'⟩ fall ∨ .call t fall ∈ queue') :
    Onto good ⟨seen, insns, queue⟩ ⟨seen', insns', queue'⟩ := by
  refine ⟨fun a ha => ?_, hcall, hpre⟩
  obtain ⟨i, f, hf, haddr, hi⟩ := ha
  refine ⟨i, f, getElem?_of_prefix hpre hf, haddr, ?_⟩
  rcases hi with hi | hi
  · exact .inl (hseen i hi)
  · exact hqueue i hi

/-- The queue a pick leaves: nothing, or the rest behind the instruction picked. -/
def Pick.leftover (p : Pick) (insns : List Flow) : List Flow × List Item :=
  match p with
  | .visit i insns' queue => (insns', .insn i :: queue)
  | _ => (insns, [])

theorem pick_onto {seen : List ℕ} {queue : List Item} {insns : List Flow}
    {calls : List (U64 × Bool)} {p : Pick} (hl : Lifted cm insns)
    (hf : Follows (pick cm seen queue insns) calls p) (hgood : ∀ t, (t, true) ∈ calls → good t)
    (hp : p ≠ .leaves) :
    ∃ insns', Lifted cm (Pick.leftover p insns').1 ∧ Onto good ⟨seen, insns, queue⟩
        ⟨seen, (Pick.leftover p insns').1, (Pick.leftover p insns').2⟩ := by
  induction queue generalizing insns calls with
  | nil =>
    cases hf
    exact ⟨insns, hl, Onto.refl _⟩
  | cons item queue ih =>
    cases item with
    | insn j =>
      unfold pick at hf
      split at hf
      · next hseen =>
        obtain ⟨insns', hl', ho⟩ := ih hl hf hgood
        refine ⟨insns', hl', Onto.trans (onto_of_queue prefix_rfl (fun _ h => h)
          (fun i hi => ?_) fun t fall ht => ?_) ho⟩
        · rcases mem_cons.mp hi with heq | hi
          · cases heq
            exact .inl hseen
          · exact .inr hi
        · exact .inr (.inr ((mem_cons.mp ht).resolve_left (by intro h; cases h)))
      · cases hf
        exact ⟨insns, hl, Onto.refl _⟩
    | call target fall =>
      unfold pick at hf
      cases hf with
      | @ask _ stops rest _ _ hrest =>
        have hgood' : ∀ t, (t, true) ∈ rest → good t :=
          fun t ht => hgood t (mem_cons_of_mem _ ht)
        cases stops with
        | true =>
          obtain ⟨insns', hl', ho⟩ := ih hl hrest hgood'
          refine ⟨insns', hl', Onto.trans (onto_of_queue prefix_rfl (fun _ h => h)
            (fun i hi => ?_) fun t fall' ht => ?_) ho⟩
          · exact .inr ((mem_cons.mp hi).resolve_left (by intro h; cases h))
          · rcases mem_cons.mp ht with heq | ht
            · cases heq
              exact .inl (hgood _ mem_cons_self)
            · exact .inr (.inr ht)
        | false =>
          simp only [Bool.false_eq_true, if_false] at hrest
          cases hcode : codeAt cm insns fall with
          | mk r lifted =>
            rw [hcode] at hrest
            obtain ⟨hpre, hl₁, hfound⟩ := codeAt_spec hl hcode
            cases r with
            | none =>
              cases hrest
              exact absurd rfl hp
            | some j =>
              obtain ⟨f, hf, haddr⟩ := hfound j rfl
              have hsplit : ∀ {queue' : List Item}, (∀ i ∈ queue, i ∈ queue') →
                  (j ∈ seen ∨ .insn j ∈ queue') →
                    Onto good ⟨seen, insns, .call target fall :: queue⟩ ⟨seen, lifted, queue'⟩ := by
                intro queue' hsub hj
                refine onto_of_queue hpre (fun _ h => h) (fun i hi => ?_) fun t fall' ht => ?_
                · exact .inr (hsub _ ((mem_cons.mp hi).resolve_left (by intro h; cases h)))
                · rcases mem_cons.mp ht with heq | ht
                  · cases heq
                    exact .inr (.inl ⟨j, f, hf, haddr, hj⟩)
                  · exact .inr (.inr (hsub _ ht))
              simp only at hrest
              split at hrest
              · next hseen =>
                obtain ⟨insns', hl', ho⟩ := ih hl₁ hrest hgood'
                exact ⟨insns', hl', (hsplit (fun _ h => h) (.inl hseen)).trans ho⟩
              · cases hrest
                exact ⟨insns, hl₁, hsplit (fun _ h => mem_cons_of_mem _ h) (.inr mem_cons_self)⟩

theorem visit_onto {seen : List ℕ} {i : ℕ} {f : Flow} {insns insns' : List Flow}
    {queue queue' : List Item} (hl : Lifted cm insns)
    (hv : visit cm named f insns queue = some (insns', queue')) :
    Onto good ⟨seen, insns, .insn i :: queue⟩ ⟨i :: seen, insns', queue'⟩ ∧
      (f.trap = true ∨ Handled named good ⟨i :: seen, insns', queue'⟩ f) := by
  obtain ⟨hpre, -, hkeep, -, hhandled⟩ := visit_spec hl hv
  constructor
  · refine onto_of_queue hpre (fun j hj => mem_cons_of_mem _ hj) (fun j hj => ?_)
      fun t fall ht => ?_
    · rcases mem_cons.mp hj with heq | hj
      · cases heq
        exact .inl mem_cons_self
      · exact .inr (hkeep _ hj)
    · exact .inr (.inr (hkeep _ ((mem_cons.mp ht).resolve_left (by intro h; cases h))))
  · rcases hhandled with htrap | ⟨falls, targets, calls, hs, hcalls, htargets⟩
    · exact .inl htrap
    · have hreached : ∀ t ∈ targets ++ (if falls then [f.next] else []), named t = true ∨
          Reached ⟨i :: seen, insns', queue'⟩ t := by
        intro t ht
        rcases htargets t ht with hnamed | ⟨j, g, hg, haddr, hj⟩
        · exact .inl hnamed
        · exact .inr ⟨j, g, hg, haddr, .inr hj⟩
      refine .inr ⟨hs.exit, fun uncond t ht => ?_, fun t ht => ?_, fun hfall => ?_⟩
      · exact hreached t (mem_append_left _ (hs.branch uncond t ht))
      · exact (hs.call t ht).imp_right fun hq => .inr (.inr (hcalls _ hq))
      · refine hreached f.next (mem_append_right _ ?_)
        rw [hs.falls hfall.2]
        exact mem_singleton.mpr rfl

theorem Closing.onto {s s' : State} (h : Closing cm named good s) (ho : Onto good s s')
    (hflow : ∀ f ∈ s'.insns, cm.flow f.address = some f) (new : List ℕ)
    (hseen : s'.seen = new ++ s.seen)
    (hnew : ∀ i ∈ new, ∃ f, s'.insns[i]? = some f ∧ (f.trap = true ∨ Handled named good s' f)) :
    Closing cm named good s' := by
  refine ⟨hflow, fun i hi => ?_⟩
  rw [hseen] at hi
  rcases mem_append.mp hi with hi | hi
  · exact hnew i hi
  · obtain ⟨f, hf, hdone⟩ := h.seen i hi
    exact ⟨f, getElem?_of_prefix ho.insns hf, hdone.imp_right fun hh => hh.onto ho⟩

theorem search_closes (fuel : ℕ) {s : State} {calls : List (U64 × Bool)}
    (hl : Lifted cm s.insns) (h : Closing cm named good s)
    (hf : Follows (search cm named fuel s) calls false)
    (hgood : ∀ t, (t, true) ∈ calls → good t) :
    ∃ s', Onto good s s' ∧ Closing cm named good s' ∧ s'.queue = [] := by
  induction fuel generalizing s calls with
  | zero => cases hf
  | succ fuel ih =>
    unfold search at hf
    obtain ⟨p, before, after, hpick, hrest, rfl⟩ := hf.bind_inv
    have hgoodBefore : ∀ t, (t, true) ∈ before → good t :=
      fun t ht => hgood t (mem_append_left _ ht)
    have hgoodAfter : ∀ t, (t, true) ∈ after → good t :=
      fun t ht => hgood t (mem_append_right _ ht)
    cases p with
    | leaves => cases hrest
    | done =>
      have hne : Pick.done ≠ Pick.leaves := Pick.noConfusion
      obtain ⟨insns, hl', ho⟩ := pick_onto hl hpick hgoodBefore hne
      exact ⟨_, ho, h.onto ho hl'.flow [] rfl fun i hi => absurd hi not_mem_nil, rfl⟩
    | visit i insns queue =>
      have hne : Pick.visit i insns queue ≠ Pick.leaves := Pick.noConfusion
      obtain ⟨_, hl', ho⟩ := pick_onto hl hpick hgoodBefore hne
      have hpicked : Closing cm named good ⟨s.seen, insns, .insn i :: queue⟩ :=
        h.onto ho hl'.flow [] rfl fun j hj => absurd hj not_mem_nil
      simp only at hrest
      cases hinsn : insns[i]? with
      | none =>
        simp only [hinsn] at hrest
        cases hrest
      | some f =>
        simp only [hinsn] at hrest
        cases hvisit : visit cm named f insns queue with
        | none =>
          simp only [hvisit] at hrest
          cases hrest
        | some st =>
          obtain ⟨insns', queue'⟩ := st
          simp only [hvisit] at hrest
          obtain ⟨hpre, hl'', -⟩ := visit_spec hl' hvisit
          have hsplit : Onto good ⟨s.seen, insns, .insn i :: queue⟩ ⟨i :: s.seen, insns', queue'⟩ ∧
              (f.trap = true ∨ Handled named good ⟨i :: s.seen, insns', queue'⟩ f) :=
            visit_onto hl' hvisit
          obtain ⟨ho', hdone⟩ := hsplit
          have hnew : ∀ j ∈ [i], ∃ g, insns'[j]? = some g ∧
              (g.trap = true ∨ Handled named good ⟨i :: s.seen, insns', queue'⟩ g) := by
            intro j hj
            obtain rfl := mem_singleton.mp hj
            exact ⟨f, getElem?_of_prefix hpre hinsn, hdone⟩
          have hvisited := hpicked.onto ho' hl''.flow [i] rfl hnew
          obtain ⟨s', ho'', hclosed, hempty⟩ := ih hl'' hvisited hrest hgoodAfter
          exact ⟨s', (ho.trans ho').trans ho'', hclosed, hempty⟩

end Search

section Verdicts

variable {cm : CodeMap} {named : U64 → Bool}

theorem not_returns_of_closing {good : U64 → Prop} {s : State}
    (hgood : ∀ t, good t → ¬ Returns cm named FallsThrough t) (h : Closing cm named good s)
    (hempty : s.queue = []) {a : U64} (hr : Returns cm named FallsThrough a) : ¬ Reached s a := by
  have hvisited : ∀ {pc f}, cm.flow pc = some f → Reached s pc →
      f.trap = true ∨ Handled named good s f := by
    intro pc f hflow hreached
    obtain ⟨i, g, hg, haddr, hi⟩ := hreached
    have hseen : i ∈ s.seen := by
      rcases hi with hi | hi
      · exact hi
      · rw [hempty] at hi
        exact absurd hi not_mem_nil
    obtain ⟨g', hg', hdone⟩ := h.seen i hseen
    obtain rfl := Option.some.inj (hg.symm.trans hg')
    have hcode := h.flow g (mem_of_getElem? hg)
    rw [haddr, hflow] at hcode
    obtain rfl := Option.some.inj hcode
    exact hdone
  have hgo : ∀ {t}, ¬ Reached s t → Returns cm named FallsThrough t →
      ¬ (named t = true ∨ Reached s t) := by
    intro t hnot hr ht
    rcases ht with hnamed | hreached
    · exact not_returns_of_named hnamed hr
    · exact hnot hreached
  induction hr with
  | @leaves pc hl =>
    intro hreached
    cases hl with
    | missing _ hnone =>
      obtain ⟨i, g, hg, haddr, -⟩ := hreached
      have hcode := h.flow g (mem_of_getElem? hg)
      rw [haddr, hnone] at hcode
      cases hcode
    | exit f _ hflow htrap hexit =>
      rcases hvisited hflow hreached with htrap' | hh
      · rw [htrap] at htrap'
        cases htrap'
      · exact hh.exit hexit
  | @branch pc f uncond t _ hflow htrap ht hr ih =>
    intro hreached
    rcases hvisited hflow hreached with htrap' | hh
    · rw [htrap] at htrap'
      cases htrap'
    · exact hgo ih hr (hh.branch uncond t ht)
  | @call pc f t _ hflow htrap ht hcallee hr _ ih =>
    intro hreached
    rcases hvisited hflow hreached with htrap' | hh
    · rw [htrap] at htrap'
      cases htrap'
    · rcases hh.call t ht with hnamed | hg | hnext | hq
      · exact not_returns_of_named hnamed hcallee
      · exact hgood t hg hcallee
      · exact ih hnext
      · rw [hempty] at hq
        exact absurd hq not_mem_nil
  | @fall pc f _ hflow hfalls hr ih =>
    intro hreached
    rcases hvisited hflow hreached with htrap' | hh
    · rw [hfalls.1] at htrap'
      cases htrap'
    · exact hgo ih hr (hh.fall hfalls)

theorem searchFrom_sound {target : U64} {calls : List (U64 × Bool)}
    (hf : Follows (searchFrom cm named target) calls (some false))
    (hcalls : ∀ t, (t, true) ∈ calls → ¬ Returns cm named FallsThrough t) :
    ¬ Returns cm named FallsThrough target := by
  unfold searchFrom at hf
  have hnil : Lifted cm [] := ⟨fun f hf => absurd hf not_mem_nil, by decide⟩
  cases hcode : codeAt cm [] target with
  | mk r insns =>
    rw [hcode] at hf
    obtain ⟨-, hl, hfound⟩ := codeAt_spec hnil hcode
    cases r with
    | none => cases hf
    | some entry =>
      obtain ⟨exit, before, after, hsearch, hrest, rfl⟩ := hf.bind_inv
      cases hrest
      obtain ⟨f, hf, haddr⟩ := hfound entry rfl
      have hstart : Closing cm named (fun t => ¬ Returns cm named FallsThrough t)
          ⟨[], insns, [.insn entry]⟩ :=
        ⟨hl.flow, fun i hi => absurd hi not_mem_nil⟩
      obtain ⟨s', ho, hclosed, hempty⟩ := search_closes rounds hl hstart hsearch fun t ht =>
        hcalls t (mem_append_left _ ht)
      intro hr
      exact not_returns_of_closing (fun t ht => ht) hclosed hempty hr
        (ho.reached target ⟨entry, f, hf, haddr, .inr mem_cons_self⟩)

/-- The memo's no-return verdicts are right. -/
def MemoSound (cm : CodeMap) (named : U64 → Bool) (memo : Memo) : Prop :=
  ∀ t d, memo t = some (.noReturn, d) → ¬ Returns cm named FallsThrough t

theorem known_sound {depth : ℕ} {stack : List U64} {target : U64} {memo : Memo}
    (hm : MemoSound cm named memo)
    (h : known named depth stack target memo = some .noReturn) :
    ¬ Returns cm named FallsThrough target := by
  unfold known at h
  split at h
  · next hnamed => exact not_returns_of_named hnamed
  · cases hmemo : memo target with
    | none =>
      simp only [hit, hmemo] at h
      split at h <;> cases h
    | some e =>
      obtain ⟨v, d⟩ := e
      simp only [hit, hmemo] at h
      by_cases hhit : v ≠ .unsure ∨ depth ≤ d
      · simp only [hhit, if_true] at h
        obtain rfl := Option.some.inj h
        exact hm target d hmemo
      · simp only [hhit, if_false] at h
        split at h <;> cases h

theorem stops_eq {v : Verdict} (h : v.stops = true) : v = .noReturn := by
  cases v
  · rfl
  · cases h
  · cases h

theorem outcome_noReturn {exit : Option Bool} {unsure : Bool}
    (h : outcome exit unsure = .noReturn) : exit = some false := by
  rcases exit with - | exit
  · cases h
  · cases exit
    · rfl
    · cases unsure <;> cases h

theorem verdict_sound (depth : ℕ) (stack : List U64) (target : U64) {memo : Memo}
    (hm : MemoSound cm named memo) :
    MemoSound cm named (verdict cm named depth stack target memo).2 ∧
      ((verdict cm named depth stack target memo).1 = .noReturn →
        ¬ Returns cm named FallsThrough target) := by
  induction depth generalizing stack target memo with
  | zero =>
    refine ⟨hm, fun h => ?_⟩
    unfold verdict at h
    cases hknown : known named 0 stack target memo with
    | none =>
      rw [hknown] at h
      cases h
    | some v =>
      rw [hknown] at h
      exact known_sound hm (hknown.trans (congrArg some h))
  | succ depth ih =>
    unfold verdict
    cases hknown : known named (depth + 1) stack target memo with
    | some v => exact ⟨hm, fun h => known_sound hm (hknown.trans (congrArg some h))⟩
    | none =>
      simp only
      have hrun := run_invariant Verdict.stops
        (fun t v => v = .noReturn → ¬ Returns cm named FallsThrough t)
        (fun t m hm => ih (target :: stack) t hm) (searchFrom cm named target) hm
      have hanalyze : (analyze cm named (verdict cm named depth (target :: stack)) target memo).1 =
          .noReturn → ¬ Returns cm named FallsThrough target := by
        intro h
        have hexit := outcome_noReturn h
        have hfollows := follows_run (verdict cm named depth (target :: stack)) Verdict.stops
          (searchFrom cm named target) memo
        rw [hexit] at hfollows
        refine searchFrom_sound hfollows fun t ht => ?_
        obtain ⟨e, he, heq⟩ := mem_map.mp ht
        obtain ⟨rfl, hstops⟩ := Prod.mk.inj heq
        exact hrun.2 e he (stops_eq hstops)
      refine ⟨fun t d h => ?_, hanalyze⟩
      unfold remember at h
      by_cases ht : t = target
      · subst ht
        rw [Function.update_self] at h
        exact hanalyze (Prod.mk.inj (Option.some.inj h)).1
      · rw [Function.update_of_ne ht] at h
        exact hrun.1 t d h

theorem isNoreturn_not_returns {t : U64} (h : isNoreturn cm named t = true) :
    ¬ Returns cm named FallsThrough t := by
  unfold isNoreturn at h
  rcases Bool.or_eq_true_iff.mp h with hnamed | hverdict
  · exact not_returns_of_named hnamed
  · exact (verdict_sound maxDepth [] t fun _ _ h => by cases h).2 (of_decide_eq_true hverdict)

/-- A no-return verdict is right where an execution that returns needs no fall-through behind
a branch or a call of the same instruction. -/
theorem isNoreturn_sound (cm : CodeMap) (named : U64 → Bool) (t : U64)
    (hshown : ReturnsFrom cm named MayFall t → ReturnsFrom cm named FallsThrough t)
    (h : isNoreturn cm named t = true) : ¬ ReturnsFrom cm named MayFall t :=
  fun hr => isNoreturn_not_returns h (returns_of_returnsFrom (hshown hr))

end Verdicts

/-- A call to itself, then a trap. -/
def recursiveCode : CodeMap :=
  codeOf [⟨0x2000, 5, false, [.call 0x2000]⟩, ⟨0x2005, 2, true, []⟩]

theorem isNoreturn_sound_recursive :
    ¬ ReturnsFrom recursiveCode (fun _ => false) MayFall 0x2000 := by
  refine isNoreturn_sound recursiveCode _ 0x2000 (returnsFrom_mono fun a f hf hfall => ?_)
    (by decide +kernel)
  rcases hfall with hfall | hinside
  · exact hfall
  · have hmem := mem_of_find?_eq_some hf
    simp only [mem_cons, not_mem_nil, or_false] at hmem
    rcases hmem with rfl | rfl <;> simp at hinside

/-- A repeated string instruction: out of the loop or back to its start; then a return. -/
def repeatCode : CodeMap :=
  codeOf [⟨0x1000, 2, false, [.branch false none, .branch true none]⟩, ⟨0x1002, 1, false, [.exit]⟩]

/-- The return behind the repeated instruction is missed. -/
theorem isNoreturn_misses_repeat : isNoreturn repeatCode (fun _ => false) 0x1000 = true ∧
      ReturnsFrom repeatCode (fun _ => false) MayFall 0x1000 := by
  refine ⟨by decide +kernel, 0x1002, ?_, ?_⟩
  · exact .single (.fall ⟨0x1000, 2, false, [.branch false none, .branch true none]⟩ rfl
      (by decide) (.inr (by decide)))
  · exact .exit ⟨0x1002, 1, false, [.exit]⟩ rfl (by decide) rfl (by decide)

end NoReturnSound
