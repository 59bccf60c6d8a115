import Reargo.DiscoveryWalk

/-!
# The discovery run

The work queue taken entry by entry. What was queued or called is visited in the end, and each
visited address is an instruction of exactly those functions whose walks met it.
-/
namespace DiscoveryRun

open PcodeModel OrderedMap FunctionDiscovery DiscoveryWalk
open List hiding dedup mem_dedup

variable {decode : Decode} {primaryAt : U64 → Option String}

/-- What taking an entry off the queue does to the run. -/
inductive Entered (decode : Decode) (entry : U64) (s : Search) : Search → Prop where
  | skipped : entry ∈ s.visited ∨ (∃ f, s.listing.get? entry = some f ∧ f.body ≠ []) →
      Entered decode entry s s
  | undecoded : decode entry = none → Entered decode entry s s
  | walked {s' : Search} {d : Discovery} : entry ∉ s.visited →
      Walks decode entry s.visited s'.visited d →
      (∀ e, (s'.listing.get? e).isSome = true ↔ (s.listing.get? e).isSome = true ∨ e = entry) →
      (∀ e f, s'.listing.get? e = some f → s.listing.get? e = some f ∨ f.body = []) →
      s'.queue = pushCalls s'.visited s'.listing s.queue d.callTargets →
      s'.bodies = s.bodies ++ [(entry, d.body, d.callTargets)] →
      Entered decode entry s s'

theorem needsBody_eq {listing : Listing} {entry : U64} {f : Function}
    (h : listing.get? entry = some f) : needsBody listing entry = f.body.isEmpty := by
  simp only [needsBody, h]

theorem entered (primaryAt : U64 → Option String) (s : Search) (entry : U64) :
    Entered decode entry s (s.enter decode primaryAt entry) := by
  simp only [Search.enter]
  split
  · rename_i hv
    exact .skipped (.inl hv)
  rename_i hv
  split
  · rename_i hlisted
    obtain ⟨f, hf⟩ := Option.isSome_iff_exists.mp hlisted.1
    refine .skipped (.inr ⟨f, hf, ?_⟩)
    have hbody := hlisted.2
    rw [needsBody_eq hf] at hbody
    exact fun hnil => hbody (isEmpty_iff.mpr hnil)
  rename_i hlisted
  cases hd : decode entry with
  | none =>
    rw [disassembleFunction_none hd]
    exact .undecoded hd
  | some insn =>
    obtain ⟨visited', references', d, heq, hwalks⟩ : ∃ visited' references' d,
        disassembleFunction decode entry s.visited s.references =
          (visited', references', some d) ∧ Walks decode entry s.visited visited' d :=
      disassembleFunction_some hd
    rw [heq]
    simp only
    cases hget : s.listing.get? entry with
    | none =>
      have hneeds : needsBody s.listing entry = false := by simp only [needsBody, hget]
      simp only [hneeds, Bool.false_eq_true, if_false]
      refine .walked hv hwalks ?_ ?_ rfl rfl
      · intro e
        simp only [OrdMap.get?_insert]
        split <;> simp [*]
      · intro e f hf
        simp only [OrdMap.get?_insert] at hf
        split at hf
        · exact .inr (by rw [← Option.some.inj hf])
        · exact .inl hf
    | some f =>
      have hneeds : needsBody s.listing entry = true := by
        by_contra hno
        exact hlisted ⟨by simp [hget], hno⟩
      simp only [hneeds, if_true]
      refine .walked hv hwalks ?_ ?_ rfl rfl
      · intro e
        constructor
        · exact .inl
        · rintro (h | rfl)
          · exact h
          · simp [hget]
      · exact fun e f hf => .inl hf

theorem Entered.decreases {entry : U64} {rest : List U64} {s s' : Search}
    (h : Entered decode entry { s with queue := rest } s') :
    Prod.Lex (· < ·) (· < ·) (Fintype.card U64 - s'.visited.card, s'.queue.length)
      (Fintype.card U64 - s.visited.card, (entry :: rest).length) := by
  cases h with
  | skipped _ => exact Prod.Lex.right _ (Nat.lt_succ_self rest.length)
  | undecoded _ => exact Prod.Lex.right _ (Nat.lt_succ_self rest.length)
  | walked hv hwalks hlisted hbodies hqueue hwalked =>
    apply Prod.Lex.left
    have hsub : insert entry s.visited ⊆ s'.visited := by
      intro a ha
      rcases Finset.mem_insert.mp ha with rfl | ha
      · exact (hwalks.visited a).mpr (.inr hwalks.entry)
      · exact (hwalks.visited a).mpr (.inl ha)
    have hcard := Finset.card_le_card hsub
    have hfewer := card_insert_lt (s := s.visited) (a := entry) hv
    omega

variable (decode primaryAt) in
/-- The walk of the queue, up to the limits. -/
def discoverLoop (s : Search) : Search :=
  match _hq : s.queue with
  | [] => s
  | entry :: rest =>
    if maxFunctions ≤ s.functionsFound ∨ maxInstructions ≤ s.instructionsDecoded then
      { s with queue := rest }
    else discoverLoop (({ s with queue := rest } : Search).enter decode primaryAt entry)
termination_by (Fintype.card U64 - s.visited.card, s.queue.length)
decreasing_by
  simp only [_hq]
  exact (entered primaryAt { s with queue := rest } entry).decreases

variable (decode primaryAt) in
def discover (listing : Listing) (queue : List U64) : Search :=
  discoverLoop decode primaryAt ⟨listing, queue, ∅, [], [], 0, 0, 0⟩

def Search.functions (s : Search) : Listing := setWalked s.listing s.bodies

section Loop

variable {s : Search} {entry : U64} {rest : List U64}

theorem discoverLoop_nil (hq : s.queue = []) : discoverLoop decode primaryAt s = s := by
  rw [discoverLoop]
  split
  · rfl
  · rename_i hcons
    simp [hq] at hcons

theorem discoverLoop_cons (hq : s.queue = entry :: rest) : discoverLoop decode primaryAt s =
      if maxFunctions ≤ s.functionsFound ∨ maxInstructions ≤ s.instructionsDecoded then
        { s with queue := rest }
      else discoverLoop decode primaryAt
        (({ s with queue := rest } : Search).enter decode primaryAt entry) := by
  rw [discoverLoop]
  split
  · rename_i hnil
    simp [hq] at hnil
  · rename_i hcons
    obtain ⟨rfl, rfl⟩ := List.cons.inj (hq.symm.trans hcons)
    rfl

theorem discoverLoop_keeps (keeps : Search → Prop)
    (hstep : ∀ s s' entry rest, keeps s → s.queue = entry :: rest →
      Entered decode entry { s with queue := rest } s' → keeps s')
    (h : keeps s)
    (hfunctions : (discoverLoop decode primaryAt s).functionsFound < maxFunctions)
    (hinsns : (discoverLoop decode primaryAt s).instructionsDecoded < maxInstructions) :
    keeps (discoverLoop decode primaryAt s) ∧ (discoverLoop decode primaryAt s).queue = [] := by
  induction s using discoverLoop.induct decode primaryAt with
  | case1 s hq =>
    rw [discoverLoop_nil hq]
    exact ⟨h, hq⟩
  | case2 s entry rest hq hlimit =>
    rw [discoverLoop_cons hq, if_pos hlimit] at hfunctions hinsns
    simp only at hfunctions hinsns
    omega
  | case3 s entry rest hq hlimit ih =>
    rw [discoverLoop_cons hq, if_neg hlimit] at hfunctions hinsns ⊢
    exact ih (hstep s _ entry rest h hq (entered primaryAt _ entry)) hfunctions hinsns

end Loop

structure SearchInv (decode : Decode) (listing : Listing) (queue : List U64) (s : Search) :
    Prop where
  visited : ∀ a, a ∈ s.visited ↔ ∃ w ∈ s.bodies, Starts w.2.1 a
  walked : ∀ w ∈ s.bodies, BodyOf decode w.2.1 w.2.2 ∧ Starts w.2.1 w.1
  once : (s.bodies.map Prod.fst).Nodup
  unset : ∀ e f, s.listing.get? e = some f → f.body = []
  listed : ∀ e, (s.listing.get? e).isSome = true ↔
    (listing.get? e).isSome = true ∨ e ∈ s.bodies.map Prod.fst
  queued : ∀ a ∈ queue, a ∈ s.visited ∨ decode a = none ∨ a ∈ s.queue
  called : ∀ w ∈ s.bodies, ∀ t ∈ w.2.2, t ∈ s.visited ∨ decode t = none ∨ t ∈ s.queue ∨
    (listing.get? t).isSome = true

section Step

variable {listing : Listing} {queue rest : List U64} {s s' : Search} {entry : U64}

theorem SearchInv.entry_visited (h : SearchInv decode listing queue s)
    (he : entry ∈ s.bodies.map Prod.fst) : entry ∈ s.visited := by
  obtain ⟨w, hw, rfl⟩ := mem_map.mp he
  exact (h.visited w.1).mpr ⟨w, hw, (h.walked w hw).2⟩

theorem SearchInv.pop (h : SearchInv decode listing queue s) (hq : s.queue = entry :: rest)
    (hdone : entry ∈ s.visited ∨ decode entry = none) :
    SearchInv decode listing queue { s with queue := rest } := by
  have hpop : ∀ a, a ∈ s.queue → a ∈ s.visited ∨ decode a = none ∨ a ∈ rest := by
    intro a ha
    rw [hq] at ha
    rcases mem_cons.mp ha with rfl | ha
    · exact hdone.imp_right .inl
    · exact .inr (.inr ha)
  refine ⟨h.visited, h.walked, h.once, h.unset, h.listed, ?_, ?_⟩
  · intro a ha
    rcases h.queued a ha with hv | hd | hin
    · exact .inl hv
    · exact .inr (.inl hd)
    · exact hpop a hin
  · intro w hw t ht
    rcases h.called w hw t ht with hv | hd | hin | hl
    · exact .inl hv
    · exact .inr (.inl hd)
    · rcases hpop t hin with hv | hd | hin
      · exact .inl hv
      · exact .inr (.inl hd)
      · exact .inr (.inr (.inl hin))
    · exact .inr (.inr (.inr hl))

theorem mem_pushCalls {visited : Finset U64} {calls : List U64} {a : U64} :
    a ∈ pushCalls visited listing queue calls ↔
      a ∈ queue ∨ a ∈ calls ∧ a ∉ visited ∧ (listing.get? a).isNone = true := by
  simp only [pushCalls, mem_append, mem_filter, decide_eq_true_eq]

theorem SearchInv.walk {d : Discovery} (h : SearchInv decode listing queue s)
    (hq : s.queue = entry :: rest) (hv : entry ∉ s.visited)
    (hwalks : Walks decode entry s.visited s'.visited d)
    (hlisted : ∀ e, (s'.listing.get? e).isSome = true ↔
      (s.listing.get? e).isSome = true ∨ e = entry)
    (hunset : ∀ e f, s'.listing.get? e = some f → s.listing.get? e = some f ∨ f.body = [])
    (hqueue : s'.queue = pushCalls s'.visited s'.listing rest d.callTargets)
    (hbodies : s'.bodies = s.bodies ++ [(entry, d.body, d.callTargets)]) :
    SearchInv decode listing queue s' := by
  have hentry : entry ∈ s'.visited := (hwalks.visited entry).mpr (.inr hwalks.entry)
  have hmore : ∀ a, a ∈ s.visited → a ∈ s'.visited := fun a ha => (hwalks.visited a).mpr (.inl ha)
  have hpop : ∀ a, a ∈ s.queue → a ∈ s'.visited ∨ a ∈ s'.queue := by
    intro a ha
    rw [hq] at ha
    rcases mem_cons.mp ha with rfl | ha
    · exact .inl hentry
    · rw [hqueue]
      exact .inr (mem_pushCalls.mpr (.inl ha))
  have hentries : ∀ e, (s'.listing.get? e).isSome = true ↔
      (listing.get? e).isSome = true ∨ e ∈ s'.bodies.map Prod.fst := by
    intro e
    rw [hlisted, h.listed, hbodies, map_append, mem_append, or_assoc]
    simp
  refine ⟨?_, ?_, ?_, ?_, hentries, ?_, ?_⟩
  · intro a
    rw [hwalks.visited, h.visited, hbodies]
    constructor
    · rintro (⟨w, hw, ha⟩ | ha)
      · exact ⟨w, mem_append_left _ hw, ha⟩
      · exact ⟨_, mem_append_right _ mem_cons_self, ha⟩
    · rintro ⟨w, hw, ha⟩
      rcases mem_append.mp hw with hw | hw
      · exact .inl ⟨w, hw, ha⟩
      · rw [mem_singleton.mp hw] at ha
        exact .inr ha
  · intro w hw
    rw [hbodies] at hw
    rcases mem_append.mp hw with hw | hw
    · exact h.walked w hw
    · rw [mem_singleton.mp hw]
      exact ⟨hwalks.body, hwalks.entry⟩
  · rw [hbodies, map_append]
    apply nodup_append.mpr
    refine ⟨h.once, by simp, ?_⟩
    rintro e he e' he' rfl
    obtain rfl : e = entry := by simpa using he'
    exact hv (h.entry_visited he)
  · intro e f hf
    rcases hunset e f hf with hf | hf
    · exact h.unset e f hf
    · exact hf
  · intro a ha
    rcases h.queued a ha with hin | hd | hin
    · exact .inl (hmore a hin)
    · exact .inr (.inl hd)
    · exact (hpop a hin).imp_right .inr
  · intro w hw t ht
    rw [hbodies] at hw
    rcases mem_append.mp hw with hw | hw
    · rcases h.called w hw t ht with hin | hd | hin | hl
      · exact .inl (hmore t hin)
      · exact .inr (.inl hd)
      · exact (hpop t hin).imp_right fun hin => .inr (.inl hin)
      · exact .inr (.inr (.inr hl))
    · rw [mem_singleton.mp hw] at ht
      by_cases hvt : t ∈ s'.visited
      · exact .inl hvt
      cases hl : s'.listing.get? t with
      | none =>
        rw [hqueue]
        exact .inr (.inr (.inl (mem_pushCalls.mpr (.inr ⟨ht, hvt, by simp [hl]⟩))))
      | some f =>
        -- listed: from the start, or walked and so visited
        rcases (hentries t).mp (by simp [hl]) with hinit | hin
        · exact .inr (.inr (.inr hinit))
        · exfalso
          obtain ⟨w, hw, rfl⟩ := mem_map.mp hin
          rw [hbodies] at hw
          rcases mem_append.mp hw with hw | hw
          · exact hvt (hmore _ (h.entry_visited (mem_map_of_mem hw)))
          · rw [mem_singleton.mp hw] at hvt
            exact hvt hentry

theorem SearchInv.step (h : SearchInv decode listing queue s) (hq : s.queue = entry :: rest)
    (he : Entered decode entry { s with queue := rest } s') :
    SearchInv decode listing queue s' := by
  cases he with
  | skipped hskip =>
    rcases hskip with hv | ⟨f, hf, hbody⟩
    · exact h.pop hq (.inl hv)
    · exact absurd (h.unset entry f hf) hbody
  | undecoded hd => exact h.pop hq (.inr hd)
  | walked hv hwalks hlisted hunset hqueue hbodies =>
    exact h.walk hq hv hwalks hlisted hunset hqueue hbodies

end Step

theorem searchInv_initial {listing : Listing} {queue : List U64}
    (hunset : ∀ e f, listing.get? e = some f → f.body = []) :
    SearchInv decode listing queue ⟨listing, queue, ∅, [], [], 0, 0, 0⟩ where
  visited := by simp
  walked := by simp
  once := by simp
  unset := hunset
  listed := by simp
  queued := fun a ha => .inr (.inr ha)
  called := by simp

variable {w : Walked}

section Bodies

theorem get?_setBody_ne {listing : Listing} {e : U64} (h : e ≠ w.1) :
    (setBody listing w).get? e = listing.get? e := by
  simp only [setBody]
  split
  · rw [OrdMap.get?_insert, if_neg h]
  · rfl

variable {walked : List Walked}

theorem get?_setWalked_of_notMem {listing : Listing} {e : U64}
    (h : e ∉ walked.map Prod.fst) : (setWalked listing walked).get? e = listing.get? e := by
  induction walked generalizing listing with
  | nil => rfl
  | cons w walked ih =>
    simp only [map_cons, mem_cons, not_or] at h
    exact (ih h.2).trans (get?_setBody_ne h.1)

theorem get?_setWalked {listing : Listing} (honce : (walked.map Prod.fst).Nodup) (hw : w ∈ walked)
    {f : Function} (hf : listing.get? w.1 = some f) :
    (setWalked listing walked).get? w.1 =
      some { f with body := AddressSet.ofInsns w.2.1, callTargets := w.2.2 } := by
  induction walked generalizing listing with
  | nil => exact absurd hw not_mem_nil
  | cons v walked ih =>
    simp only [map_cons, nodup_cons] at honce
    rcases mem_cons.mp hw with rfl | hw
    · apply (get?_setWalked_of_notMem honce.1).trans
      simp only [setBody, hf, OrdMap.get?_insert_self]
    · have hne : w.1 ≠ v.1 := fun heq => honce.1 (heq ▸ mem_map_of_mem hw)
      exact ih honce.2 hw ((get?_setBody_ne hne).trans hf)

theorem mem_ofInsns {insns : List (U64 × BitVec 32)} {r : U64 × BitVec 32} :
    r ∈ AddressSet.ofInsns insns ↔ r ∈ insns := by
  simp only [AddressSet.ofInsns, mem_dedup, mem_mergeSort]

theorem dedup_sublist {α : Type} [DecidableEq α] (l : List α) : (dedup l).Sublist l := by
  induction l using dedup.induct with
  | case1 => exact List.Sublist.refl _
  | case2 b => exact List.Sublist.refl _
  | case3 b l ih =>
    simp only [dedup, if_true]
    exact ih.cons _
  | case4 b c l hne ih =>
    simp only [dedup, if_neg hne]
    exact ih.cons_cons _

theorem rangeLe_iff {r s : U64 × BitVec 32} : AddressSet.rangeLe r s = true ↔
    r.1.toNat < s.1.toNat ∨ r.1.toNat = s.1.toNat ∧ r.2.toNat ≤ s.2.toNat := by
  simp only [AddressSet.rangeLe, Bool.or_eq_true, Bool.and_eq_true, beq_iff_eq,
    decide_eq_true_eq, BitVec.lt_def, BitVec.le_def, ← BitVec.toNat_inj]

theorem ofInsns_sorted (insns : List (U64 × BitVec 32)) :
    (AddressSet.ofInsns insns).Pairwise fun r s => r.1.toNat ≤ s.1.toNat := by
  have hsorted : (insns.mergeSort AddressSet.rangeLe).Pairwise
      fun r s => AddressSet.rangeLe r s = true := by
    apply pairwise_mergeSort
    · intro r s t hrs hst
      rw [rangeLe_iff] at hrs hst ⊢
      omega
    · intro r s
      simp only [Bool.or_eq_true, rangeLe_iff]
      omega
  apply (hsorted.sublist (dedup_sublist _)).imp
  intro r s hrs
  rw [rangeLe_iff] at hrs
  omega

theorem le_getLast {α : Type} {f : α → ℕ} {l : List α} (h : l.Pairwise fun r s => f r ≤ f s)
    {r last : α} (hr : r ∈ l) (hlast : l.getLast? = some last) : f r ≤ f last := by
  obtain ⟨init, rfl⟩ := getLast?_eq_some_iff.mp hlast
  obtain ⟨-, -, hle⟩ := pairwise_append.mp h
  rcases mem_append.mp hr with hr | hr
  · exact hle r hr last mem_cons_self
  · rw [mem_singleton.mp hr]

/-- What the decoder gives is not empty and does not run past the top. -/
def DecodeFits (decode : Decode) : Prop :=
  ∀ a insn, decode a = some insn → 1 ≤ insn.length.toNat ∧ a.toNat + insn.length.toNat < 2 ^ 64

theorem contains_of_starts {body : List (U64 × BitVec 32)} {calls : List U64} {a : U64}
    (hfits : DecodeFits decode) (hbody : BodyOf decode body calls) (h : Starts body a) :
    (AddressSet.ofInsns body).contains a = true := by
  obtain ⟨len, hlen⟩ := h
  have hmem : (a, len) ∈ (AddressSet.ofInsns body).filter fun r => r.1 ≤ a :=
    mem_filter.mpr ⟨mem_ofInsns.mpr hlen, by simp⟩
  have hsorted := (ofInsns_sorted body).sublist
    (filter_sublist (p := fun r : U64 × BitVec 32 => decide (r.1 ≤ a)))
  cases hlast : ((AddressSet.ofInsns body).filter fun r => r.1 ≤ a).getLast? with
  | none =>
    rw [getLast?_eq_none_iff.mp hlast] at hmem
    exact absurd hmem not_mem_nil
  | some r =>
    -- the last range that starts at `a` or before starts at `a`
    have hle : a.toNat ≤ r.1.toNat := le_getLast hsorted hmem hlast
    obtain ⟨hr, hra⟩ := mem_filter.mp (mem_of_getLast? hlast)
    have hge : r.1.toNat ≤ a.toNat := by simpa [BitVec.le_def] using hra
    obtain ⟨insn, hd, hlength⟩ := hbody.insns r.1 r.2 (mem_ofInsns.mp hr)
    obtain ⟨hpos, htop⟩ := hfits r.1 insn hd
    rw [hlength] at hpos htop
    simp only [AddressSet.contains, hlast, decide_eq_true_eq]
    omega

end Bodies

def Found (functions : Listing) (a : U64) : Prop :=
  ∃ f, functions.get? a = some f ∧ f.body.contains a = true

def Called (decode : Decode) (functions : Listing) (a : U64) : Prop :=
  ∃ e f, functions.get? e = some f ∧ ∃ x, Starts f.body x ∧ CallsAt decode x a

section Runs

variable {listing : Listing} {queue : List U64}

theorem SearchInv.functions {s : Search} (h : SearchInv decode listing queue s)
    (hw : w ∈ s.bodies) :
    ∃ f, (Search.functions s).get? w.1 = some f ∧ f.body = AddressSet.ofInsns w.2.1 := by
  have hlisted := (h.listed w.1).mpr (.inr (mem_map_of_mem hw))
  obtain ⟨f, hf⟩ := Option.isSome_iff_exists.mp hlisted
  exact ⟨_, get?_setWalked h.once hw hf, rfl⟩

theorem SearchInv.called_walked {s : Search} {a : U64} (h : SearchInv decode listing queue s)
    (hcalled : Called decode (Search.functions s) a) : ∃ w ∈ s.bodies, a ∈ w.2.2 := by
  obtain ⟨e, f, hf, x, ⟨len, hx⟩, hcall⟩ := hcalled
  by_cases he : e ∈ s.bodies.map Prod.fst
  · obtain ⟨w, hw, rfl⟩ := mem_map.mp he
    obtain ⟨f', hf', hbody⟩ := h.functions hw
    obtain rfl : f = f' := Option.some.inj (hf.symm.trans hf')
    rw [hbody, mem_ofInsns] at hx
    exact ⟨w, hw, ((h.walked w hw).1.calls a).mpr ⟨x, len, hx, hcall⟩⟩
  · have hf' := (get?_setWalked_of_notMem he).symm.trans hf
    rw [h.unset e f hf'] at hx
    exact absurd hx not_mem_nil

end Runs

section JumpIn

def jumpIn : Decode := fun a =>
  if a = 0 then some ⟨16, 5, .unconditionalJump, true⟩
  else if a = 16 then some ⟨0, 1, .ret, false⟩
  else none

theorem jumpIn_fits : DecodeFits jumpIn := by
  intro a insn h
  simp only [jumpIn] at h
  split at h
  · rename_i ha
    rw [ha, ← Option.some.inj h]
    decide
  · split at h
    · rename_i ha
      rw [ha, ← Option.some.inj h]
      decide
    · contradiction

theorem walkBlocks_jumpIn : walkBlocks jumpIn ⟨[0], ∅, ∅, [], [], []⟩ =
    ⟨[], {16, 0}, {16, 0}, [(0, 5), (16, 1)], [], [⟨0, 16, .unconditionalJump⟩]⟩ := by
  have hjump : walkBlock jumpIn 0 maxInsns 0 ⟨[], {0}, ∅, [], [], []⟩ =
      ⟨[16], {0}, {0}, [(0, 5)], [], [⟨0, 16, .unconditionalJump⟩]⟩ := rfl
  have hret : walkBlock jumpIn 16 maxInsns 16
      ⟨[], {16, 0}, {0}, [(0, 5)], [], [⟨0, 16, .unconditionalJump⟩]⟩ =
      ⟨[], {16, 0}, {16, 0}, [(0, 5), (16, 1)], [], [⟨0, 16, .unconditionalJump⟩]⟩ := rfl
  have hnew : (0 : U64) ∉ (∅ : Finset U64) := Finset.notMem_empty 0
  have hnew' : (16 : U64) ∉ ({0} : Finset U64) := by decide
  calc walkBlocks jumpIn ⟨[0], ∅, ∅, [], [], []⟩
      = walkBlocks jumpIn ⟨[16], {0}, {0}, [(0, 5)], [], [⟨0, 16, .unconditionalJump⟩]⟩ :=
        (walkBlocks_block rfl hnew).trans (congrArg (walkBlocks jumpIn) hjump)
    _ = walkBlocks jumpIn ⟨[], {16, 0}, {16, 0}, [(0, 5), (16, 1)], [],
          [⟨0, 16, .unconditionalJump⟩]⟩ :=
        (walkBlocks_block rfl hnew').trans (congrArg (walkBlocks jumpIn) hret)
    _ = _ := walkBlocks_nil rfl

/-- The run over it from both addresses. -/
def jumpInRun : Search :=
  { listing := (OrdMap.empty : Listing).insert 0 ⟨0, hexName 0, [], []⟩
    queue := []
    visited := {16, 0}
    references := [⟨0, 16, .unconditionalJump⟩]
    bodies := [(0, [(0, 5), (16, 1)], [])]
    functionsFound := 1
    referencesFound := 1
    instructionsDecoded := 2 }

theorem discover_jumpIn : discover jumpIn (fun _ => none) OrdMap.empty [0, 16] = jumpInRun := by
  have hwalk : disassembleFunction jumpIn 0 ∅ [] =
      ({16, 0}, [⟨0, 16, .unconditionalJump⟩], some ⟨[(0, 5), (16, 1)], [], 1, 2⟩) := by
    simp only [disassembleFunction, walkBlocks_jumpIn, mergeSort_nil]
    rfl
  have hfirst : (⟨OrdMap.empty, [16], ∅, [], [], 0, 0, 0⟩ : Search).enter jumpIn
      (fun _ => none) 0 = { jumpInRun with queue := [16] } := by
    have hnew : (0 : U64) ∉ (∅ : Finset U64) := Finset.notMem_empty 0
    simp only [Search.enter, if_neg hnew, hwalk]
    rfl
  have hsecond : ({ jumpInRun with queue := [] } : Search).enter jumpIn (fun _ => none) 16 =
      jumpInRun := by
    have hseen : (16 : U64) ∈ jumpInRun.visited := by decide
    simp only [Search.enter, if_pos hseen]
    rfl
  calc discover jumpIn (fun _ => none) OrdMap.empty [0, 16]
      = discoverLoop jumpIn (fun _ => none) { jumpInRun with queue := [16] } := by
        rw [discover, discoverLoop_cons rfl, if_neg (by decide)]
        exact congrArg _ hfirst
    _ = discoverLoop jumpIn (fun _ => none) jumpInRun := by
        rw [discoverLoop_cons rfl, if_neg (by decide)]
        exact congrArg _ hsecond
    _ = jumpInRun := discoverLoop_nil rfl

end JumpIn

/-- Every address queued, or called and not listed before the run, at which an instruction
decodes is the entry of a function that holds it, unless the walk of another function met it:
then it is an instruction of that one's body. -/
theorem discover_keeps (decode : Decode) (primaryAt : U64 → Option String) (listing : Listing)
    (queue : List U64) (hfits : DecodeFits decode)
    (hunset : ∀ e f, listing.get? e = some f → f.body = [])
    (hfunctions : (discover decode primaryAt listing queue).functionsFound < maxFunctions)
    (hinsns : (discover decode primaryAt listing queue).instructionsDecoded < maxInstructions)
    (a : U64) (hd : (decode a).isSome = true)
    (ha : a ∈ queue ∨ listing.get? a = none ∧
      Called decode (Search.functions (discover decode primaryAt listing queue)) a) :
    Found (Search.functions (discover decode primaryAt listing queue)) a ∨
    ∃ e f, e ≠ a ∧ (Search.functions (discover decode primaryAt listing queue)).get? e = some f ∧
      f.body.contains a = true ∧ Starts f.body a := by
  obtain ⟨hinv, hempty⟩ := discoverLoop_keeps (SearchInv decode listing queue)
    (fun s s' entry rest h hq he => h.step hq he) (searchInv_initial hunset) hfunctions hinsns
  change SearchInv decode listing queue (discover decode primaryAt listing queue) at hinv
  change (discover decode primaryAt listing queue).queue = [] at hempty
  generalize discover decode primaryAt listing queue = s at ha hinv hempty
  have hsome : decode a ≠ none := fun hnone => by simp [hnone] at hd
  have hvisited : a ∈ s.visited := by
    rcases ha with ha | ⟨hnew, hcalled⟩
    · rcases hinv.queued a ha with hv | hno | hin
      · exact hv
      · exact absurd hno hsome
      · rw [hempty] at hin
        exact absurd hin not_mem_nil
    · obtain ⟨w, hw, ht⟩ := hinv.called_walked hcalled
      rcases hinv.called w hw a ht with hv | hno | hin | hl
      · exact hv
      · exact absurd hno hsome
      · rw [hempty] at hin
        exact absurd hin not_mem_nil
      · simp [hnew] at hl
  obtain ⟨w, hw, hstarts⟩ := (hinv.visited a).mp hvisited
  obtain ⟨f, hf, hbody⟩ := hinv.functions hw
  have hcontains : f.body.contains a = true :=
    hbody ▸ contains_of_starts hfits (hinv.walked w hw).1 hstarts
  by_cases he : w.1 = a
  · exact .inl ⟨f, he ▸ hf, hcontains⟩
  · obtain ⟨len, hlen⟩ := hstarts
    exact .inr ⟨w.1, f, he, hf, hcontains, len, hbody ▸ mem_ofInsns.mpr hlen⟩

/-- The queued return is no function: the walk of the jump took it in. -/
theorem discover_drops_jump_target : DecodeFits jumpIn ∧ (jumpIn 16).isSome = true ∧
    (discover jumpIn (fun _ => none) OrdMap.empty [0, 16]).functionsFound < maxFunctions ∧
    (discover jumpIn (fun _ => none) OrdMap.empty [0, 16]).instructionsDecoded <
      maxInstructions ∧
    ¬ Found (Search.functions (discover jumpIn (fun _ => none) OrdMap.empty [0, 16])) 16 := by
  rw [discover_jumpIn]
  refine ⟨jumpIn_fits, by decide, by decide, by decide, ?_⟩
  rintro ⟨f, hf, -⟩
  have hunwalked : (16 : U64) ∉ jumpInRun.bodies.map Prod.fst := by decide
  have hnone : jumpInRun.listing.get? 16 = none := rfl
  have hget := (get?_setWalked_of_notMem hunwalked).trans hnone
  exact Option.some_ne_none f (hf.symm.trans hget)

theorem discover_keeps_jump_target :
    Found (Search.functions (discover jumpIn (fun _ => none) OrdMap.empty [0, 16])) 16 ∨
    ∃ e f, e ≠ 16 ∧
      (Search.functions (discover jumpIn (fun _ => none) OrdMap.empty [0, 16])).get? e = some f ∧
      f.body.contains 16 = true ∧ Starts f.body 16 := by
  have hfunctions : (discover jumpIn (fun _ => none) OrdMap.empty [0, 16]).functionsFound <
      maxFunctions := by
    rw [discover_jumpIn]
    decide
  have hinsns : (discover jumpIn (fun _ => none) OrdMap.empty [0, 16]).instructionsDecoded <
      maxInstructions := by
    rw [discover_jumpIn]
    decide
  exact discover_keeps jumpIn (fun _ => none) OrdMap.empty [0, 16] jumpIn_fits
    (by simp) hfunctions hinsns 16 (by decide) (.inl (by decide))

end DiscoveryRun
