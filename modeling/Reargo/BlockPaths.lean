import Reargo.BlockFlow
import Reargo.EdgeFlow

/-!
# What a flow over blocks describes

The walk of a block as a data flow with states on the edges, and the execution paths of a
lift. Where the walks keep to their blocks, the state a call's block is last walked with
describes every path to the call.
-/
namespace BlockPaths

open PcodeModel BlockShapes BlockFlow List
open Option (some.inj)
open ControlFlow (LiftedInstruction)

variable {S T C : Type} [FlowState S] {out : List (U64 × S)}

/-- What a walk reads of the blocks, by their addresses. -/
structure Blocks where
  starts : List U64
  body : U64 → List LiftedInstruction
  next : U64 → Option U64
  fixed : U64 → Bool

def insnWalk (starts : List U64) (snapshot : S → T) (w : LegacyWalk S T)
    (insn : LiftedInstruction) : LegacyWalk S T :=
  insn.ops.foldl (legacyOp starts snapshot insn.address) w

def startWalk (s : S) : LegacyWalk S T := { st := s, out := [], fallsThrough := true, snaps := [] }

/-- The instructions up to the first that falls through to none. -/
def untilStop : List LiftedInstruction → List LiftedInstruction
  | [] => []
  | insn :: insns => if insn.ops.any isStop then [insn] else insn :: untilStop insns

theorem prefix_untilStop (insns : List LiftedInstruction) : untilStop insns <+: insns := by
  induction insns with
  | nil => exact prefix_refl _
  | cons insn insns ih =>
    unfold untilStop
    split
    · exact cons_prefix_cons.mpr ⟨rfl, nil_prefix⟩
    · exact cons_prefix_cons.mpr ⟨rfl, ih⟩

theorem untilStop_cons (insn : LiftedInstruction) (insns : List LiftedInstruction) :
    ∃ rest, untilStop (insn :: insns) = insn :: rest := by
  unfold untilStop
  split
  · exact ⟨[], rfl⟩
  · exact ⟨untilStop insns, rfl⟩

theorem untilStop_eq_self {insns : List LiftedInstruction}
    (h : ∀ insn ∈ untilStop insns, insn.ops.any isStop = false) : untilStop insns = insns := by
  induction insns with
  | nil => rfl
  | cons insn insns ih =>
    unfold untilStop at h ⊢
    split at h
    · next hstop =>
      rw [h insn mem_cons_self] at hstop
      cases hstop
    · next hstop =>
      rw [if_neg hstop, ih fun x hx => h x (mem_cons_of_mem _ hx)]

def Blocks.walk (B : Blocks) (snapshot : S → T) (b : U64) (s : S) : LegacyWalk S T :=
  legacyInsns B.starts snapshot (B.body b) (startWalk s)

def outOf (next : Option U64) (w : LegacyWalk S T) : List (U64 × S) :=
  if w.fallsThrough then
    match next with
    | some e => addEdgeAt w.out e w.st
    | none => w.out
  else w.out

section Walks

variable {starts : List U64} {snapshot : S → T} {w : LegacyWalk S T}

theorem addEdgeAt_sorted (h : (out.map Prod.fst).Pairwise (· < ·))
    (dest : U64) (s : S) : ((addEdgeAt out dest s).map Prod.fst).Pairwise (· < ·) :=
  OrderedMap.insertEntry_sorted h

theorem addJumpAt_sorted (h : (out.map Prod.fst).Pairwise (· < ·))
    (op : PcodeOp) (s : S) : ((addJumpAt starts op out s).map Prod.fst).Pairwise (· < ·) := by
  unfold addJumpAt
  split
  · exact addEdgeAt_sorted h _ _
  · exact h

theorem legacyOp_sorted (h : (w.out.map Prod.fst).Pairwise (· < ·)) (address : U64) (op : PcodeOp) :
    ((legacyOp starts snapshot address w op).out.map Prod.fst).Pairwise (· < ·) := by
  unfold legacyOp
  split
  · exact h
  · exact h
  · exact addJumpAt_sorted h _ _
  · exact addJumpAt_sorted h _ _
  · exact h
  · exact h
  · exact h

theorem insnWalk_sorted (h : (w.out.map Prod.fst).Pairwise (· < ·)) (insn : LiftedInstruction) :
    ((insnWalk starts snapshot w insn).out.map Prod.fst).Pairwise (· < ·) :=
  List.foldlRecOn insn.ops (legacyOp starts snapshot insn.address)
    (motive := fun w => (w.out.map Prod.fst).Pairwise (· < ·)) h
    fun _ hw op _ => legacyOp_sorted hw _ op

variable (starts snapshot) in
theorem legacyInsns_sorted (insns : List LiftedInstruction)
    (h : (w.out.map Prod.fst).Pairwise (· < ·)) :
    ((legacyInsns starts snapshot insns w).out.map Prod.fst).Pairwise (· < ·) := by
  induction insns generalizing w with
  | nil => exact h
  | cons insn insns ih =>
    unfold legacyInsns
    dsimp only
    split
    · exact ih (insnWalk_sorted h insn)
    · exact insnWalk_sorted h insn

theorem legacyOp_fallsThrough (address : U64) (op : PcodeOp) :
    (legacyOp starts snapshot address w op).fallsThrough = (w.fallsThrough && !isStop op) := by
  unfold legacyOp isStop
  split <;> simp_all

variable (starts snapshot w) in
theorem insnWalk_fallsThrough (insn : LiftedInstruction) :
    (insnWalk starts snapshot w insn).fallsThrough = (w.fallsThrough && !insn.ops.any isStop) := by
  unfold insnWalk
  generalize insn.address = address
  induction insn.ops generalizing w with
  | nil => simp
  | cons op ops ih =>
    rw [foldl_cons, ih, legacyOp_fallsThrough, any_cons, Bool.not_or, Bool.and_assoc]

theorem legacyInsns_eq (insns : List LiftedInstruction) (h : w.fallsThrough = true) :
    legacyInsns starts snapshot insns w = (untilStop insns).foldl (insnWalk starts snapshot) w := by
  induction insns generalizing w with
  | nil => rfl
  | cons insn insns ih =>
    have hfalls := insnWalk_fallsThrough starts snapshot w insn
    rw [h, Bool.true_and] at hfalls
    unfold legacyInsns untilStop
    change (if (insnWalk starts snapshot w insn).fallsThrough then _ else _) = _
    cases hstop : insn.ops.any isStop with
    | true =>
      rw [hstop] at hfalls
      rw [hfalls]
      rfl
    | false =>
      rw [hstop] at hfalls
      rw [if_pos (by rw [hfalls]; rfl), if_neg (by simp)]
      exact ih hfalls

theorem foldl_insnWalk_fallsThrough (insns : List LiftedInstruction) :
    (insns.foldl (insnWalk starts snapshot) w).fallsThrough =
      (w.fallsThrough && insns.all fun insn => !insn.ops.any isStop) := by
  induction insns generalizing w with
  | nil => simp
  | cons insn insns ih =>
    rw [foldl_cons, ih, insnWalk_fallsThrough, all_cons, Bool.and_assoc]

theorem addJumpAt_mem (h : ∀ e ∈ out, e.1 ∈ starts) (op : PcodeOp) (s : S) :
    ∀ e ∈ addJumpAt starts op out s, e.1 ∈ starts := by
  intro e he
  unfold addJumpAt at he
  split at he
  · next t ht =>
    have hkey : e.1 ∈ (addEdgeAt out t s).map Prod.fst := mem_map.mpr ⟨e, he, rfl⟩
    rcases OrderedMap.mem_keys_insertEntry hkey with hk | hk
    · rw [hk]
      exact of_decide_eq_true (Option.filter_eq_some_iff.mp ht).2
    · obtain ⟨e', he', heq⟩ := mem_map.mp hk
      exact heq ▸ h e' he'
  · exact h e he

theorem legacyOp_mem (h : ∀ e ∈ w.out, e.1 ∈ starts) (address : U64) (op : PcodeOp) :
    ∀ e ∈ (legacyOp starts snapshot address w op).out, e.1 ∈ starts := by
  unfold legacyOp
  split
  · exact h
  · exact h
  · exact addJumpAt_mem h _ _
  · exact addJumpAt_mem h _ _
  · exact h
  · exact h
  · exact h

theorem insnWalk_mem (h : ∀ e ∈ w.out, e.1 ∈ starts) (insn : LiftedInstruction) :
    ∀ e ∈ (insnWalk starts snapshot w insn).out, e.1 ∈ starts :=
  List.foldlRecOn insn.ops (legacyOp starts snapshot insn.address)
    (motive := fun w => ∀ e ∈ w.out, e.1 ∈ starts) h fun _ hw op _ => legacyOp_mem hw _ op

theorem legacyInsns_mem (insns : List LiftedInstruction) (h : ∀ e ∈ w.out, e.1 ∈ starts) :
    ∀ e ∈ (legacyInsns starts snapshot insns w).out, e.1 ∈ starts := by
  induction insns generalizing w with
  | nil => exact h
  | cons insn insns ih =>
    unfold legacyInsns
    dsimp only
    split
    · exact ih (insnWalk_mem h insn)
    · exact insnWalk_mem h insn

/-- The walk with snapshots from before. -/
def withSnaps (pre : List (U64 × T)) (w : LegacyWalk S T) : LegacyWalk S T :=
  { w with snaps := pre ++ w.snaps }

theorem legacyOp_withSnaps (address : U64) (op : PcodeOp) (pre : List (U64 × T)) :
    legacyOp starts snapshot address (withSnaps pre w) op =
      withSnaps pre (legacyOp starts snapshot address w op) := by
  unfold legacyOp withSnaps
  split <;> simp

variable (starts snapshot w) in
theorem insnWalk_withSnaps (insn : LiftedInstruction) (pre : List (U64 × T)) :
    insnWalk starts snapshot (withSnaps pre w) insn =
      withSnaps pre (insnWalk starts snapshot w insn) := by
  unfold insnWalk
  generalize insn.address = address
  induction insn.ops generalizing w with
  | nil => rfl
  | cons op ops ih => rw [foldl_cons, legacyOp_withSnaps, ih, foldl_cons]

theorem legacyInsns_withSnaps (insns : List LiftedInstruction) (pre : List (U64 × T)) :
    legacyInsns starts snapshot insns (withSnaps pre w) =
      withSnaps pre (legacyInsns starts snapshot insns w) := by
  induction insns generalizing w with
  | nil => rfl
  | cons insn insns ih =>
    have hsnaps := insnWalk_withSnaps starts snapshot w insn pre
    unfold legacyInsns
    change (if (insnWalk starts snapshot (withSnaps pre w) insn).fallsThrough
      then legacyInsns starts snapshot insns (insnWalk starts snapshot (withSnaps pre w) insn)
      else insnWalk starts snapshot (withSnaps pre w) insn) =
        withSnaps pre (if (insnWalk starts snapshot w insn).fallsThrough then
          legacyInsns starts snapshot insns (insnWalk starts snapshot w insn)
        else insnWalk starts snapshot w insn)
    rw [hsnaps]
    by_cases hfalls : (insnWalk starts snapshot w insn).fallsThrough = true
    · rw [if_pos hfalls, if_pos (show (withSnaps pre _).fallsThrough = true from hfalls), ih]
    · rw [if_neg hfalls, if_neg (show ¬ (withSnaps pre _).fallsThrough = true from hfalls)]

end Walks

variable {w : LegacyWalk S T}

theorem outOf_sorted {next : Option U64} (h : (w.out.map Prod.fst).Pairwise (· < ·)) :
    ((outOf next w).map Prod.fst).Pairwise (· < ·) := by
  unfold outOf
  split
  · split
    · exact addEdgeAt_sorted h _ _
    · exact h
  · exact h

theorem outOf_mem {next : Option U64} {e : U64 × S} (he : e ∈ outOf next w) :
    next = some e.1 ∨ ∃ s, (e.1, s) ∈ w.out := by
  unfold outOf at he
  split at he
  · split at he
    · next dest =>
      have hkey : e.1 ∈ (addEdgeAt w.out dest w.st).map Prod.fst := mem_map.mpr ⟨e, he, rfl⟩
      rcases OrderedMap.mem_keys_insertEntry hkey with hk | hk
      · exact .inl (hk ▸ rfl)
      · obtain ⟨e', he', heq⟩ := mem_map.mp hk
        exact .inr ⟨e'.2, heq ▸ he'⟩
    · exact .inr ⟨e.2, he⟩
  · exact .inr ⟨e.2, he⟩

theorem Blocks.walk_mem (B : Blocks) (snapshot : S → T) (b : U64) (s : S) :
    ∀ e ∈ (B.walk snapshot b s).out, e.1 ∈ B.starts :=
  legacyInsns_mem (B.body b) fun _ h => absurd h not_mem_nil

def flowOf (B : Blocks) (snapshot : S → T) : EdgeFlow.Flow U64 S (U64 × T) where
  join := FlowState.join
  empty := FlowState.default
  fixed := B.fixed
  out b s := outOf (B.next b) (B.walk snapshot b s)
  out_nodup b s := by
    have hsorted := legacyInsns_sorted B.starts snapshot
      (w := startWalk s) (B.body b) List.Pairwise.nil
    exact (outOf_sorted hsorted).imp fun h => ne_of_lt h
  record b s := (B.walk snapshot b s).snaps
  cap := maxVisitsPerBlock

def isCall (op : PcodeOp) : Bool := decide (op.opcode = .call) || decide (op.opcode = .callInd)

/-- What the operations other than jumps and calls do to a concrete state, and what calls
do. -/
structure Machine (C : Type) where
  exec : PcodeOp → C → C → Prop
  call : PcodeOp → C → C → Prop

/-- Instruction, operation of it that comes next, and the concrete state. -/
abbrev Site (C : Type) := ℕ × ℕ × C

/-- A conditional jump goes either way. -/
inductive PathStep (M : Machine C) (insns : List LiftedInstruction) : Site C → Site C → Prop where
  | exec (i k : ℕ) (c c' : C) (insn : LiftedInstruction) (op : PcodeOp) :
      insns[i]? = some insn → insn.ops[k]? = some op → isCall op = false → isEnd op = false →
      M.exec op c c' → PathStep M insns (i, k, c) (i, k + 1, c')
  | call (i k : ℕ) (c c' : C) (insn : LiftedInstruction) (op : PcodeOp) :
      insns[i]? = some insn → insn.ops[k]? = some op → isCall op = true →
      M.call op c c' → PathStep M insns (i, k, c) (i, k + 1, c')
  | stay (i k : ℕ) (c : C) (insn : LiftedInstruction) (op : PcodeOp) :
      insns[i]? = some insn → insn.ops[k]? = some op → op.opcode = .cBranch →
      PathStep M insns (i, k, c) (i, k + 1, c)
  | jump (i k j : ℕ) (c : C) (insn dest : LiftedInstruction) (op : PcodeOp) :
      insns[i]? = some insn → insn.ops[k]? = some op → isJump op = true →
      InsnShape.branchTarget op = some dest.address → insns[j]? = some dest →
      PathStep M insns (i, k, c) (j, 0, c)
  | next (i : ℕ) (c : C) (insn : LiftedInstruction) :
      insns[i]? = some insn → PathStep M insns (i, insn.ops.length, c) (i + 1, 0, c)

def Reaches (M : Machine C) (insns : List LiftedInstruction) (roots : List U64) (i k : ℕ) (c : C) :
    Prop :=
  ∃ i₀ insn c₀, insns[i₀]? = some insn ∧ insn.address ∈ roots ∧
    Relation.ReflTransGen (PathStep M insns) (i₀, 0, c₀) (i, k, c)

/-- The states of a flow over-approximate what they describe. -/
structure Sound (γ : S → Set C) (M : Machine C) : Prop where
  join_left : ∀ s t, γ s ⊆ γ (FlowState.join s t)
  join_right : ∀ s t, γ t ⊆ γ (FlowState.join s t)
  default : ∀ c, c ∈ γ FlowState.default
  apply : ∀ s op c c', isCall op = false → isEnd op = false → c ∈ γ s → M.exec op c c' →
    c' ∈ γ (FlowState.apply s op)
  afterCall : ∀ s op c c', isCall op = true → c ∈ γ s → M.call op c c' →
    c' ∈ γ (FlowState.afterCall s)

theorem Sound.describes {γ : S → Set C} {M : Machine C} (h : Sound γ M) (B : Blocks)
    (snapshot : S → T) : EdgeFlow.Describes (flowOf B snapshot) γ :=
  ⟨h.join_left, h.join_right, h.default⟩

/-- A later point of a walk keeps the snapshots, and its edges describe no less. -/
structure Grows (γ : S → Set C) (w w' : LegacyWalk S T) : Prop where
  snaps : ∀ r ∈ w.snaps, r ∈ w'.snaps
  out : ∀ dest s, OrderedMap.lookup dest w.out = some s →
    ∃ s', OrderedMap.lookup dest w'.out = some s' ∧ γ s ⊆ γ s'

section Growing

variable {γ : S → Set C} {M : Machine C} {starts : List U64} {snapshot : S → T}
  {w w' w'' : LegacyWalk S T}

omit [FlowState S] in
theorem Grows.refl (w : LegacyWalk S T) : Grows γ w w :=
  ⟨fun _ h => h, fun _ s h => ⟨s, h, subset_rfl⟩⟩

omit [FlowState S] in
theorem Grows.trans (h : Grows γ w w') (h' : Grows γ w' w'') : Grows γ w w'' := by
  refine ⟨fun r hr => h'.snaps r (h.snaps r hr), fun dest s hs => ?_⟩
  obtain ⟨s', hs', hsub⟩ := h.out dest s hs
  obtain ⟨s'', hs'', hsub'⟩ := h'.out dest s' hs'
  exact ⟨s'', hs'', hsub.trans hsub'⟩

variable (hγ : Sound γ M)

include hγ

theorem lookup_addEdgeAt_self (out : List (U64 × S)) (dest : U64) (s : S) :
    ∃ s', OrderedMap.lookup dest (addEdgeAt out dest s) = some s' ∧ γ s ⊆ γ s' := by
  unfold addEdgeAt
  rw [OrderedMap.lookup_insertEntry, if_pos rfl]
  split
  · exact ⟨_, rfl, hγ.join_right _ _⟩
  · exact ⟨s, rfl, subset_rfl⟩

theorem lookup_addEdgeAt {dest d : U64} {s t : S} (h : OrderedMap.lookup d out = some t) :
    ∃ t', OrderedMap.lookup d (addEdgeAt out dest s) = some t' ∧ γ t ⊆ γ t' := by
  unfold addEdgeAt
  rw [OrderedMap.lookup_insertEntry]
  by_cases hd : d = dest
  · subst hd
    rw [if_pos rfl, h]
    exact ⟨_, rfl, hγ.join_left _ _⟩
  · rw [if_neg hd]
    exact ⟨t, h, subset_rfl⟩

theorem grows_addJumpAt (op : PcodeOp) (falls : Bool) :
    Grows γ w { w with out := addJumpAt starts op w.out w.st, fallsThrough := falls } := by
  refine ⟨fun _ h => h, fun dest s hs => ?_⟩
  dsimp only
  unfold addJumpAt
  split
  · exact lookup_addEdgeAt hγ hs
  · exact ⟨s, hs, subset_rfl⟩

theorem grows_legacyOp (address : U64) (op : PcodeOp) :
    Grows γ w (legacyOp starts snapshot address w op) := by
  unfold legacyOp
  split
  · exact ⟨fun _ h => mem_append_left _ h, fun _ s h => ⟨s, h, subset_rfl⟩⟩
  · exact ⟨fun _ h => mem_append_left _ h, fun _ s h => ⟨s, h, subset_rfl⟩⟩
  · exact grows_addJumpAt hγ op w.fallsThrough
  · exact grows_addJumpAt hγ op false
  · exact ⟨fun _ h => h, fun _ s h => ⟨s, h, subset_rfl⟩⟩
  · exact ⟨fun _ h => h, fun _ s h => ⟨s, h, subset_rfl⟩⟩
  · exact ⟨fun _ h => h, fun _ s h => ⟨s, h, subset_rfl⟩⟩

theorem grows_ops (address : U64) (ops : List PcodeOp) :
    Grows γ w (ops.foldl (legacyOp starts snapshot address) w) := by
  induction ops generalizing w with
  | nil => exact .refl w
  | cons op ops ih =>
    rw [foldl_cons]
    exact (grows_legacyOp hγ address op).trans ih

theorem grows_insns (insns : List LiftedInstruction) :
    Grows γ w (insns.foldl (insnWalk starts snapshot) w) := by
  induction insns generalizing w with
  | nil => exact .refl w
  | cons insn insns ih =>
    rw [foldl_cons]
    exact (grows_ops hγ insn.address insn.ops).trans ih

end Growing

/-- The walks of the blocks entered keep to them: each takes instructions from its block's
start on, none of them another's start, and goes on where the next begins. -/
structure Tiles (insns : List LiftedInstruction) (B : Blocks) (live : U64 → Prop) (lo : U64 → ℕ) :
    Prop where
  body : ∀ b, live b → ∃ insn rest, untilStop (B.body b) = insn :: rest ∧ insn.address = b ∧
    (insn :: rest) <+: insns.drop (lo b)
  start : ∀ i insn, insns[i]? = some insn → live insn.address → lo insn.address = i
  inside : ∀ b, live b → ∀ insn ∈ (untilStop (B.body b)).tail, ¬ live insn.address
  target : ∀ b, live b → ∀ insn ∈ untilStop (B.body b), ∀ dest ∈ insns,
    dest.address ∈ jumpTargets insn → dest.address ∈ B.starts ∧ live dest.address
  falls : ∀ b, live b → (∀ insn ∈ untilStop (B.body b), insn.ops.any isStop = false) →
    ∀ insn, insns[lo b + (untilStop (B.body b)).length]? = some insn →
      live insn.address ∧ B.next b = some insn.address

def walkTo (B : Blocks) (snapshot : S → T) (s : S) (before : List LiftedInstruction)
    (address : U64) (ops : List PcodeOp) : LegacyWalk S T :=
  ops.foldl (legacyOp B.starts snapshot address)
    (before.foldl (insnWalk B.starts snapshot) (startWalk s))

theorem walkTo_succ {B : Blocks} {snapshot : S → T} {s : S} {before : List LiftedInstruction}
    {address : U64} {ops : List PcodeOp} {k : ℕ} {op : PcodeOp} (hop : ops[k]? = some op) :
    walkTo B snapshot s before address (ops.take (k + 1)) =
      legacyOp B.starts snapshot address (walkTo B snapshot s before address (ops.take k)) op := by
  unfold walkTo
  rw [take_add_one, hop, foldl_append]
  rfl

structure Place (insns : List LiftedInstruction) (B : Blocks) (live : U64 → Prop) (lo : U64 → ℕ)
    (i k : ℕ) (b : U64) (before : List LiftedInstruction) (insn : LiftedInstruction)
    (after : List LiftedInstruction) : Prop where
  start : live b
  body : untilStop (B.body b) = before ++ insn :: after
  index : lo b + before.length = i
  ops : k ≤ insn.ops.length

section Places

variable {insns : List LiftedInstruction} {B : Blocks} {live : U64 → Prop} {lo : U64 → ℕ}
  {i k : ℕ} {b : U64} {before after : List LiftedInstruction} {insn : LiftedInstruction}

theorem untilStop_nonstop {insns before after : List LiftedInstruction}
    {insn : LiftedInstruction} (h : untilStop insns = before ++ insn :: after)
    (hafter : after ≠ [] ∨ insn.ops.any isStop = false) :
    (∀ x ∈ before, x.ops.any isStop = false) ∧ insn.ops.any isStop = false := by
  induction insns generalizing before with
  | nil =>
    cases before <;> cases h
  | cons x insns ih =>
    unfold untilStop at h
    split at h
    · next hstop =>
      cases before with
      | nil =>
        rw [nil_append, List.cons.injEq] at h
        obtain ⟨rfl, hnil⟩ := h
        exact ⟨fun _ hx => absurd hx not_mem_nil, hafter.resolve_left fun hne => hne hnil.symm⟩
      | cons y before =>
        rw [cons_append, List.cons.injEq] at h
        have hnil := h.2
        cases before <;> cases hnil
    · next hstop =>
      cases before with
      | nil =>
        rw [nil_append, List.cons.injEq] at h
        obtain ⟨rfl, _⟩ := h
        exact ⟨fun _ hx => absurd hx not_mem_nil, by simpa using hstop⟩
      | cons y before =>
        rw [cons_append, List.cons.injEq] at h
        obtain ⟨rfl, h⟩ := h
        obtain ⟨hb, hi⟩ := ih h
        refine ⟨fun z hz => ?_, hi⟩
        rcases mem_cons.mp hz with rfl | hz
        · simpa using hstop
        · exact hb z hz

section

variable (hT : Tiles insns B live lo) (h : Place insns B live lo i k b before insn after)

include hT h

theorem Place.getElem : insns[i]? = some insn := by
  obtain ⟨x, rest, hbody, -, ⟨post, hpre⟩⟩ := hT.body b h.start
  rw [← hbody, h.body, append_assoc] at hpre
  have hget : (insns.drop (lo b))[before.length]? = some insn := by
    rw [← hpre, List.getElem?_append_right (le_refl _), Nat.sub_self]
    rfl
  rwa [List.getElem?_drop, h.index] at hget

theorem Place.unique {k' : ℕ} {b' : U64} {before' after' : List LiftedInstruction}
    {insn' : LiftedInstruction}
    (h' : Place insns B live lo i k' b' before' insn' after') : b = b' ∧ before = before' := by
  wlog hle : lo b ≤ lo b' generalizing b b' before before' after after' insn insn' k k'
  · have := this h' h (by omega)
    exact ⟨this.1.symm, this.2.symm⟩
  obtain ⟨x, rest, hbody, hx, ⟨post, hpre⟩⟩ := hT.body b h.start
  obtain ⟨x', rest', hbody', hx', ⟨post', hpre'⟩⟩ := hT.body b' h'.start
  have hlen : lo b' - lo b ≤ before.length := by
    have := h.index
    have := h'.index
    omega
  have hget' : insns[lo b']? = some x' := by
    have : (insns.drop (lo b'))[0]? = some x' := by
      rw [← hpre']
      rfl
    rwa [getElem?_drop, add_zero] at this
  have hat : (untilStop (B.body b))[lo b' - lo b]? = some x' := by
    have hin : (insns.drop (lo b))[lo b' - lo b]? = some x' := by
      rw [getElem?_drop, Nat.add_sub_cancel' hle, hget']
    have hshort : lo b' - lo b < (x :: rest).length := by
      rw [← hbody, h.body, length_append, length_cons]
      omega
    rwa [← hpre, getElem?_append_left hshort, ← hbody] at hin
  have hbb : b = b' := by
    rcases Nat.eq_zero_or_pos (lo b' - lo b) with hzero | hpos
    · rw [hzero, hbody] at hat
      have hxx : x = x' := some.inj hat
      rw [← hx, ← hx', hxx]
    · refine absurd (hx' ▸ h'.start) (hT.inside b h.start x' ?_)
      obtain ⟨m, hm⟩ : ∃ m, lo b' - lo b = m + 1 := ⟨lo b' - lo b - 1, by omega⟩
      rw [hm, ← getElem?_tail] at hat
      exact mem_of_getElem? hat
  subst hbb
  refine ⟨rfl, ?_⟩
  have hsame : before.length = before'.length := by
    have := h.index
    have := h'.index
    omega
  exact (append_inj (h.body.symm.trans h'.body) hsame).1

end

theorem Place.grows {γ : S → Set C} {M : Machine C} (hγ : Sound γ M) {snapshot : S → T} {s : S}
    (h : Place insns B live lo i k b before insn after) :
    Grows γ (walkTo B snapshot s before insn.address (insn.ops.take k)) (B.walk snapshot b s) := by
  have hwalk : B.walk snapshot b s = after.foldl (insnWalk B.starts snapshot)
        ((insn.ops.drop k).foldl (legacyOp B.starts snapshot insn.address)
          (walkTo B snapshot s before insn.address (insn.ops.take k))) := by
    unfold Blocks.walk walkTo
    rw [legacyInsns_eq _ rfl, h.body, foldl_append, foldl_cons, ← foldl_append, take_append_drop]
    rfl
  rw [hwalk]
  exact (grows_ops hγ _ _).trans (grows_insns hγ _)

end Places

section Describing

variable {insns : List LiftedInstruction} {B : Blocks} {live : U64 → Prop} {lo : U64 → ℕ}
  {γ : S → Set C} {M : Machine C} {snapshot : S → T} {last : U64 → Option S} {i k : ℕ} {c c' : C}

def Described (insns : List LiftedInstruction) (B : Blocks) (live : U64 → Prop) (lo : U64 → ℕ)
    (γ : S → Set C) (snapshot : S → T) (last : U64 → Option S) (i k : ℕ) (c : C) : Prop :=
  ∃ b before insn after s, Place insns B live lo i k b before insn after ∧ last b = some s ∧
    (∀ op ∈ insn.ops.take k, isStop op = false) ∧
    c ∈ γ (walkTo B snapshot s before insn.address (insn.ops.take k)).st

def Leads (B : Blocks) (γ : S → Set C) (snapshot : S → T) (last : U64 → Option S) : Prop :=
  ∀ b s, last b = some s → ∀ dest t,
    OrderedMap.lookup dest (outOf (B.next b) (B.walk snapshot b s)) = some t →
      ∃ s', last dest = some s' ∧ γ t ⊆ γ s'

variable (snapshot) in
theorem enter_described (hT : Tiles insns B live lo) {b : U64} {s : S} (hb : live b)
    (hlast : last b = some s) (hc : c ∈ γ s) :
    Described insns B live lo γ snapshot last (lo b) 0 c := by
  obtain ⟨insn, rest, hbody, -, -⟩ := hT.body b hb
  refine ⟨b, [], insn, rest, s, ⟨hb, hbody, rfl, Nat.zero_le _⟩, hlast, ?_, hc⟩
  rw [take_zero]
  exact fun op hop => absurd hop not_mem_nil

theorem legacyOp_exec {starts : List U64} (address : U64) {op : PcodeOp}
    (hcall : isCall op = false) (hend : isEnd op = false) :
    legacyOp starts snapshot address w op = { w with st := FlowState.apply w.st op } := by
  unfold isCall at hcall
  unfold isEnd isJump at hend
  simp only [Bool.or_eq_false_iff, decide_eq_false_iff_not, not_or] at hcall hend
  unfold legacyOp
  split <;> simp_all

theorem legacyOp_call {starts : List U64} (address : U64) {op : PcodeOp}
    (hcall : isCall op = true) :
    legacyOp starts snapshot address w op =
      { w with snaps := w.snaps ++ [(address, snapshot w.st)],
               st := FlowState.afterCall w.st } := by
  unfold isCall at hcall
  simp only [Bool.or_eq_true, decide_eq_true_eq] at hcall
  unfold legacyOp
  rcases hcall with h | h <;> rw [h]

theorem legacyOp_jump {starts : List U64} (address : U64) {op : PcodeOp}
    (hjump : isJump op = true) :
    (legacyOp starts snapshot address w op).out = addJumpAt starts op w.out w.st ∧
      (legacyOp starts snapshot address w op).st = w.st := by
  unfold isJump at hjump
  simp only [decide_eq_true_eq] at hjump
  unfold legacyOp
  rcases hjump with h | h <;> rw [h] <;> exact ⟨rfl, rfl⟩

theorem isStop_of_isEnd {op : PcodeOp} (h : isEnd op = false) : isStop op = false := by
  unfold isEnd isJump at h
  unfold isStop
  simp_all

theorem isStop_of_isCall {op : PcodeOp} (h : isCall op = true) : isStop op = false := by
  unfold isCall at h
  simp only [Bool.or_eq_true, decide_eq_true_eq] at h
  unfold isStop
  rcases h with h | h <;> rw [h] <;> rfl

theorem isStop_of_cBranch {op : PcodeOp} (h : op.opcode = .cBranch) : isStop op = false := by
  unfold isStop
  rw [h]
  rfl

theorem Described.op {insn : LiftedInstruction} {op : PcodeOp} (hT : Tiles insns B live lo)
    (h : Described insns B live lo γ snapshot last i k c) (hi : insns[i]? = some insn)
    (hop : insn.ops[k]? = some op) (hstop : isStop op = false)
    (hstep : ∀ w : LegacyWalk S T, c ∈ γ w.st →
      c' ∈ γ (legacyOp B.starts snapshot insn.address w op).st) :
    Described insns B live lo γ snapshot last i (k + 1) c' := by
  obtain ⟨b, before, insn', after, s, hP, hlast, hpast, hc⟩ := h
  obtain rfl : insn' = insn := some.inj ((hP.getElem hT).symm.trans hi)
  have hk := (List.getElem?_eq_some_iff.mp hop).1
  refine ⟨b, before, insn', after, s, ⟨hP.start, hP.body, hP.index, hk⟩, hlast, ?_, ?_⟩
  · rw [take_add_one, hop]
    intro x hx
    rcases mem_append.mp hx with hx | hx
    · exact hpast x hx
    · rwa [mem_singleton.mp hx]
  · rw [walkTo_succ hop]
    exact hstep _ hc

theorem lookup_outOf {γ : S → Set C} (hγ : Sound γ M) (next : Option U64)
    {dest : U64} {s : S} (h : OrderedMap.lookup dest w.out = some s) :
    ∃ s', OrderedMap.lookup dest (outOf next w) = some s' ∧ γ s ⊆ γ s' := by
  unfold outOf
  split
  · split
    · exact lookup_addEdgeAt hγ h
    · exact ⟨s, h, subset_rfl⟩
  · exact ⟨s, h, subset_rfl⟩

section

variable (hT : Tiles insns B live lo) (hγ : Sound γ M) (hleads : Leads B γ snapshot last)

include hT hγ hleads

theorem Described.jump {insn dest : LiftedInstruction} {op : PcodeOp} {j : ℕ}
    (h : Described insns B live lo γ snapshot last i k c) (hi : insns[i]? = some insn)
    (hop : insn.ops[k]? = some op) (hjump : isJump op = true)
    (htarget : InsnShape.branchTarget op = some dest.address) (hj : insns[j]? = some dest) :
    Described insns B live lo γ snapshot last j 0 c := by
  obtain ⟨b, before, insn', after, s, hP, hlast, -, hc⟩ := h
  obtain rfl : insn' = insn := some.inj ((hP.getElem hT).symm.trans hi)
  have hmem : op ∈ insn'.ops := mem_of_getElem? hop
  obtain ⟨hstarts, hstart⟩ : dest.address ∈ B.starts ∧ live dest.address := by
    refine hT.target b hP.start insn' ?_ dest (mem_of_getElem? hj) ?_
    · rw [hP.body]
      exact mem_append_right _ mem_cons_self
    · exact mem_filterMap.mpr ⟨op, mem_filter.mpr ⟨hmem, hjump⟩, htarget⟩
  have hk := (List.getElem?_eq_some_iff.mp hop).1
  have hP' : Place insns B live lo i (k + 1) b before insn' after :=
    ⟨hP.start, hP.body, hP.index, hk⟩
  have hedge : ∃ t, OrderedMap.lookup dest.address
      (walkTo B snapshot s before insn'.address (insn'.ops.take (k + 1))).out = some t ∧
        γ (walkTo B snapshot s before insn'.address (insn'.ops.take k)).st ⊆ γ t := by
    rw [walkTo_succ hop, (legacyOp_jump insn'.address hjump).1]
    unfold addJumpAt
    have hfilter : (InsnShape.branchTarget op).filter (· ∈ B.starts) = some dest.address := by
      rw [htarget, Option.filter_some, if_pos (decide_eq_true hstarts)]
    rw [hfilter]
    exact lookup_addEdgeAt_self hγ _ _ _
  obtain ⟨t, ht, hsub⟩ := hedge
  obtain ⟨t', ht', hsub'⟩ := (hP'.grows hγ).out _ _ ht
  obtain ⟨t'', ht'', hsub''⟩ := lookup_outOf hγ (B.next b) ht'
  obtain ⟨s', hs', hlead⟩ := hleads b s hlast _ _ ht''
  have henter := enter_described snapshot hT hstart hs' (hlead (hsub'' (hsub' (hsub hc))))
  rwa [hT.start j dest hj hstart] at henter

theorem Described.next {insn : LiftedInstruction}
    (h : Described insns B live lo γ snapshot last i insn.ops.length c) (hi : insns[i]? = some insn) :
    Described insns B live lo γ snapshot last (i + 1) 0 c ∨ insns.length ≤ i + 1 := by
  obtain ⟨b, before, insn', after, s, hP, hlast, hpast, hc⟩ := h
  obtain rfl : insn' = insn := some.inj ((hP.getElem hT).symm.trans hi)
  rw [take_length] at hpast hc
  have hstop : insn'.ops.any isStop = false := any_eq_false.mpr fun op hop => by
    rw [hpast op hop]
    exact Bool.false_ne_true
  have hnonstop := untilStop_nonstop hP.body (.inr hstop)
  have hwalk : walkTo B snapshot s before insn'.address insn'.ops =
      (before ++ [insn']).foldl (insnWalk B.starts snapshot) (startWalk s) := by
    rw [foldl_append]
    rfl
  rw [hwalk] at hc
  cases after with
  | cons x after =>
    left
    refine ⟨b, before ++ [insn'], x, after, s, ⟨hP.start, ?_, ?_, Nat.zero_le _⟩, hlast, ?_, hc⟩
    · rw [hP.body, append_assoc]
      rfl
    · rw [length_append, length_singleton, ← Nat.add_assoc, hP.index]
    · rw [take_zero]
      exact fun op hop => absurd hop not_mem_nil
  | nil =>
    have hall : ∀ x ∈ before ++ [insn'], x.ops.any isStop = false := by
      intro x hx
      rcases mem_append.mp hx with hx | hx
      · exact hnonstop.1 x hx
      · rwa [mem_singleton.mp hx]
    cases hnext : insns[i + 1]? with
    | none => exact .inr (getElem?_eq_none_iff.mp hnext)
    | some dest =>
      left
      have hlen : lo b + (untilStop (B.body b)).length = i + 1 := by
        rw [hP.body, length_append, length_singleton, ← add_assoc, hP.index]
      obtain ⟨hstart, hdest⟩ := hT.falls b hP.start (by rw [hP.body]; exact hall) dest
        (by rw [hlen, hnext])
      have hends : B.walk snapshot b s =
          (before ++ [insn']).foldl (insnWalk B.starts snapshot) (startWalk s) := by
        unfold Blocks.walk
        rw [legacyInsns_eq _ rfl, hP.body]
      have hfalls : (B.walk snapshot b s).fallsThrough = true := by
        rw [hends, foldl_insnWalk_fallsThrough, Bool.and_eq_true, all_eq_true]
        exact ⟨rfl, fun x hx => by rw [hall x hx]; rfl⟩
      have hedge : ∃ t, OrderedMap.lookup dest.address
          (outOf (B.next b) (B.walk snapshot b s)) = some t ∧ γ (B.walk snapshot b s).st ⊆ γ t := by
        unfold outOf
        rw [if_pos hfalls, hdest]
        exact lookup_addEdgeAt_self hγ _ _ _
      obtain ⟨t, ht, hsub⟩ := hedge
      obtain ⟨s', hs', hlead⟩ := hleads b s hlast _ _ ht
      rw [← hends] at hc
      have henter := enter_described snapshot hT hstart hs' (hlead (hsub hc))
      rwa [hT.start (i + 1) dest hnext hstart] at henter

theorem step_described {i' k' : ℕ} (hstep : PathStep M insns (i, k, c) (i', k', c'))
    (h : Described insns B live lo γ snapshot last i k c) :
    Described insns B live lo γ snapshot last i' k' c' ∨ insns.length ≤ i' := by
  cases hstep with
  | exec _ _ _ _ insn op hi hop hcall hend hexec =>
    refine .inl (h.op hT hi hop (isStop_of_isEnd hend) fun w hw => ?_)
    rw [legacyOp_exec _ hcall hend]
    exact hγ.apply _ _ _ _ hcall hend hw hexec
  | call _ _ _ _ insn op hi hop hcall hexec =>
    refine .inl (h.op hT hi hop (isStop_of_isCall hcall) fun w hw => ?_)
    rw [legacyOp_call _ hcall]
    exact hγ.afterCall _ _ _ _ hcall hw hexec
  | stay _ _ _ insn op hi hop hcb =>
    refine .inl (h.op hT hi hop (isStop_of_cBranch hcb) fun w hw => ?_)
    rwa [(legacyOp_jump insn.address (by unfold isJump; simp [hcb])).2]
  | jump _ _ _ _ insn dest op hi hop hjump htarget hj =>
    exact .inl (h.jump hT hγ hleads hi hop hjump htarget hj)
  | next _ _ insn hi => exact h.next hT hγ hleads hi

end

theorem index_lt_of_step {x y : Site C} (h : PathStep M insns x y) : x.1 < insns.length := by
  have hlt : ∀ (i : ℕ) (insn : LiftedInstruction), insns[i]? = some insn → i < insns.length :=
    fun _ _ hi => (List.getElem?_eq_some_iff.mp hi).1
  cases h with
  | exec _ _ _ _ _ _ hi => exact hlt _ _ hi
  | call _ _ _ _ _ _ hi => exact hlt _ _ hi
  | stay _ _ _ _ _ hi => exact hlt _ _ hi
  | jump _ _ _ _ _ _ _ hi => exact hlt _ _ hi
  | next _ _ _ hi => exact hlt _ _ hi

variable (hT : Tiles insns B live lo) (hγ : Sound γ M) (hleads : Leads B γ snapshot last)

include hT hγ hleads

theorem reaches_described {roots : List U64} (hroots : ∀ r ∈ roots, live r)
    (hlast : ∀ r ∈ roots, last r = some FlowState.default) (h : Reaches M insns roots i k c) :
    Described insns B live lo γ snapshot last i k c ∨ insns.length ≤ i := by
  obtain ⟨i₀, insn, c₀, hi₀, hr, hpath⟩ := h
  suffices hsite : ∀ x : Site C, Relation.ReflTransGen (PathStep M insns) (i₀, 0, c₀) x →
      Described insns B live lo γ snapshot last x.1 x.2.1 x.2.2 ∨ insns.length ≤ x.1 from
    hsite _ hpath
  intro x hx
  induction hx with
  | refl =>
    have henter := enter_described snapshot hT (hroots _ hr) (hlast _ hr) (hγ.default c₀)
    rw [hT.start i₀ insn hi₀ (hroots _ hr)] at henter
    exact .inl henter
  | tail _ hstep ih =>
    have hlt := index_lt_of_step hstep
    exact step_described hT hγ hleads hstep (ih.resolve_right (not_le.mpr hlt))

theorem calls_described {roots : List U64} (hroots : ∀ r ∈ roots, live r)
    (hlast : ∀ r ∈ roots, last r = some FlowState.default) {log : List (U64 × T)}
    (hlog : ∀ b s, last b = some s → ∀ r ∈ (B.walk snapshot b s).snaps, r ∈ log)
    {insn : LiftedInstruction} {op : PcodeOp} (hi : insns[i]? = some insn)
    (hop : insn.ops[k]? = some op) (hcall : isCall op = true)
    (hreach : ∃ c, Reaches M insns roots i k c) :
    ∃ s, (insn.address, snapshot s) ∈ log ∧ ∀ c, Reaches M insns roots i k c → c ∈ γ s := by
  have hlt := not_le.mpr (List.getElem?_eq_some_iff.mp hi).1
  have hat : ∀ c, Reaches M insns roots i k c → Described insns B live lo γ snapshot last i k c :=
    fun c hc => (reaches_described hT hγ hleads hroots hlast hc).resolve_right hlt
  obtain ⟨c₀, hc₀⟩ := hreach
  obtain ⟨b, before, insn', after, s, hP, hs, -, -⟩ := hat c₀ hc₀
  obtain rfl : insn' = insn := some.inj ((hP.getElem hT).symm.trans hi)
  have hk := (List.getElem?_eq_some_iff.mp hop).1
  refine ⟨(walkTo B snapshot s before insn'.address (insn'.ops.take k)).st, ?_, fun c hc => ?_⟩
  · have hP' : Place insns B live lo i (k + 1) b before insn' after :=
      ⟨hP.start, hP.body, hP.index, hk⟩
    refine hlog b s hs _ ((hP'.grows hγ (s := s)).snaps _ ?_)
    rw [walkTo_succ hop, legacyOp_call _ hcall]
    exact mem_append_right _ (mem_singleton.mpr rfl)
  · obtain ⟨b', before', insn'', after', s', hP', hs', -, hc'⟩ := hat c hc
    obtain ⟨rfl, rfl⟩ := hP'.unique hT hP
    obtain rfl : insn'' = insn' := some.inj ((hP'.getElem hT).symm.trans hi)
    obtain rfl : s' = s := some.inj (hs'.symm.trans hs)
    exact hc'

end Describing

end BlockPaths
