import Reargo.EmulatorMemory

/-!
# Breakpoints

Breakpoints by address, several to an address. A check of an address counts a hit of its
breakpoints in the order they were added and stops at the first that fires.
-/
namespace Breakpoints

open PcodeModel EmulatorMemory OrderedMap List Option BitVec
open OrdMap (get?_eq_some_iff)

inductive BreakCondition where
  | hitCount (n : U64)
  | registerEquals (offset value : U64)
  deriving DecidableEq

structure Breakpoint where
  id : BitVec 32
  address : U64
  enabled : Bool
  hitCount : U64
  condition : Option BreakCondition
  deriving DecidableEq

namespace Breakpoint

def new (id : BitVec 32) (address : U64) : Breakpoint := ⟨id, address, true, 0, none⟩

def withCondition (b : Breakpoint) (condition : BreakCondition) : Breakpoint :=
  { b with condition := some condition }

def shouldBreak (b : Breakpoint) (state : Option EmulatorState) : Bool :=
  if !b.enabled then false
  else match b.condition with
  | none => true
  | some (.hitCount n) => n ≤ b.hitCount
  | some (.registerEquals offset value) =>
    state.any fun s => EmulatorState.access.readRegister s offset 8 = value

def hit (b : Breakpoint) : Breakpoint := { b with hitCount := b.hitCount + 1 }

end Breakpoint

structure BreakpointManager where
  breakpoints : OrdMap U64 (List Breakpoint)
  nextId : BitVec 32

namespace BreakpointManager

def new : BreakpointManager := ⟨OrdMap.empty, 0⟩

def push (m : BreakpointManager) (b : Breakpoint) : BreakpointManager :=
  ⟨m.breakpoints.insert b.address ((m.breakpoints.get? b.address).getD [] ++ [b]), m.nextId + 1⟩

def add (m : BreakpointManager) (address : U64) : BreakpointManager × BitVec 32 :=
  (m.push (.new m.nextId address), m.nextId)

def addConditional (m : BreakpointManager) (address : U64) (condition : BreakCondition) :
    BreakpointManager × BitVec 32 :=
  (m.push ((Breakpoint.new m.nextId address).withCondition condition), m.nextId)

/-- The first bucket that holds the id, in the order of the addresses, is rewritten. -/
def rewriteFirst (id : BitVec 32) (f : List Breakpoint → List Breakpoint) :
    List (U64 × List Breakpoint) → List (U64 × List Breakpoint)
  | [] => []
  | (a, bps) :: rest =>
    if bps.any (·.id = id) then (a, f bps) :: rest else (a, bps) :: rewriteFirst id f rest

theorem keys_rewriteFirst (id : BitVec 32) (f : List Breakpoint → List Breakpoint)
    (es : List (U64 × List Breakpoint)) : (rewriteFirst id f es).map Prod.fst = es.map Prod.fst := by
  induction es with
  | nil => rfl
  | cons e es ih =>
    unfold rewriteFirst
    split
    · rfl
    · rw [map_cons, ih, map_cons]

def rewriteId (m : BreakpointManager) (id : BitVec 32) (f : List Breakpoint → List Breakpoint) :
    BreakpointManager :=
  ⟨⟨rewriteFirst id f m.breakpoints.entries, by
    rw [keys_rewriteFirst]
    exact m.breakpoints.sorted⟩, m.nextId⟩

def list (m : BreakpointManager) : List Breakpoint := m.breakpoints.values.flatten

def remove (m : BreakpointManager) (id : BitVec 32) : BreakpointManager × Bool :=
  (m.rewriteId id fun bps => bps.eraseP (·.id = id), m.list.any (·.id = id))

def enable (m : BreakpointManager) (id : BitVec 32) (enabled : Bool) : BreakpointManager :=
  m.rewriteId id fun bps =>
    bps.modify (bps.findIdx (·.id = id)) fun b => { b with enabled := enabled }

def checkLoop (state : Option EmulatorState) : List Breakpoint → List Breakpoint × Bool
  | [] => ([], false)
  | b :: rest =>
    if b.hit.shouldBreak state then (b.hit :: rest, true)
    else
      let r := checkLoop state rest
      (b.hit :: r.1, r.2)

def checkWithState (m : BreakpointManager) (address : U64) (state : Option EmulatorState) :
    BreakpointManager × Bool :=
  match m.breakpoints.get? address with
  | some bps =>
    let r := checkLoop state bps
    (⟨m.breakpoints.insert address r.1, m.nextId⟩, r.2)
  | none => (m, false)

def check (m : BreakpointManager) (address : U64) : BreakpointManager × Bool :=
  m.checkWithState address none

end BreakpointManager

inductive Call where
  | add (address : U64)
  | addConditional (address : U64) (condition : BreakCondition)
  | remove (id : BitVec 32)
  | enable (id : BitVec 32) (enabled : Bool)
  | check (address : U64)
  | checkWithState (address : U64) (state : Option EmulatorState)

namespace Call

def apply (c : Call) (m : BreakpointManager) : BreakpointManager :=
  match c with
  | .add address => (m.add address).1
  | .addConditional address condition => (m.addConditional address condition).1
  | .remove id => (m.remove id).1
  | .enable id enabled => m.enable id enabled
  | .check address => (m.check address).1
  | .checkWithState address state => (m.checkWithState address state).1

def adds : Call → Option (U64 × Option BreakCondition)
  | .add address => some (address, none)
  | .addConditional address condition => some (address, some condition)
  | _ => none

def checked : Call → Option (U64 × Option EmulatorState)
  | .check address => some (address, none)
  | .checkWithState address state => some (address, state)
  | _ => none

def checks (a : U64) (c : Call) : Bool := c.checked.any fun q => q.1 = a

end Call

def run (calls : List Call) : BreakpointManager := calls.foldl (fun m c => c.apply m) .new

theorem run_snoc (calls : List Call) (c : Call) : run (calls ++ [c]) = c.apply (run calls) := by
  simp [run]

def countAdds (calls : List Call) : ℕ := calls.countP fun c => c.adds.isSome

def Added (calls : List Call) (b : Breakpoint) (n : ℕ) : Prop :=
  ∃ before d after, calls = before ++ d :: after ∧ (d.adds.map Prod.fst) = some b.address ∧
    (run before).nextId = b.id ∧ after.countP (Call.checks b.address) = n

variable {condition : Option BreakCondition} {q : U64 × Option BreakCondition}

section Steps

variable {m : BreakpointManager} {b b' : Breakpoint} {bps bps' : List Breakpoint}
  {state : Option EmulatorState} {a : U64} {c : Call} {f : List Breakpoint → List Breakpoint}

theorem mem_list : b ∈ m.list ↔ ∃ a bps, (a, bps) ∈ m.breakpoints.entries ∧ b ∈ bps := by
  simp only [BreakpointManager.list, OrdMap.values, mem_flatten, List.mem_map, Prod.exists]
  constructor
  · rintro ⟨_, ⟨a, bps, he, rfl⟩, hb⟩
    exact ⟨a, bps, he, hb⟩
  · rintro ⟨a, bps, he, hb⟩
    exact ⟨bps, ⟨a, bps, he, rfl⟩, hb⟩

def Placed (m : BreakpointManager) : Prop :=
  ∀ a bps, m.breakpoints.get? a = some bps → ∀ b ∈ bps, b.address = a

theorem mem_list_iff (h : Placed m) :
    b ∈ m.list ↔ ∃ bps, m.breakpoints.get? b.address = some bps ∧ b ∈ bps := by
  rw [mem_list]
  constructor
  · rintro ⟨a, bps, he, hb⟩
    have hget := get?_eq_some_iff.mpr he
    exact ⟨bps, h a bps hget b hb ▸ hget, hb⟩
  · rintro ⟨bps, hget, hb⟩
    exact ⟨b.address, bps, get?_eq_some_iff.mp hget, hb⟩

/-- The same breakpoint, but for its hits. -/
structure Same (b b' : Breakpoint) : Prop where
  id : b'.id = b.id
  address : b'.address = b.address

theorem exists_of_mem_right {R : Breakpoint → Breakpoint → Prop} (h : List.Forall₂ R bps bps')
    (hb : b' ∈ bps') : ∃ b ∈ bps, R b b' := by
  induction h with
  | nil => cases hb
  | cons h _ ih =>
    rcases mem_cons.mp hb with rfl | hb
    · exact ⟨_, by simp, h⟩
    · obtain ⟨b, hmem, hb⟩ := ih hb
      exact ⟨b, mem_cons_of_mem _ hmem, hb⟩

theorem checkLoop_hits (state : Option EmulatorState) (bps : List Breakpoint) :
    List.Forall₂ (fun b b' => b' = b.hit ∨ b' = b) bps (BreakpointManager.checkLoop state bps).1 := by
  induction bps with
  | nil => exact .nil
  | cons b rest ih =>
    unfold BreakpointManager.checkLoop
    split
    · exact .cons (.inl rfl) (forall₂_same.mpr fun _ _ => .inr rfl)
    · exact .cons (.inl rfl) ih

def FiresLast (state : Option EmulatorState) (bps : List Breakpoint) : Prop :=
  ∀ b ∈ bps.dropLast, b.hit.shouldBreak state = false

theorem hit_ne (b : Breakpoint) : b.hit ≠ b := by
  intro h
  have hcount : b.hitCount + 1 = b.hitCount := congrArg Breakpoint.hitCount h
  simp at hcount

theorem checkLoop_eq_hits_iff (state : Option EmulatorState) (bps : List Breakpoint) :
    (BreakpointManager.checkLoop state bps).1 = bps.map Breakpoint.hit ↔ FiresLast state bps := by
  induction bps with
  | nil => simp [BreakpointManager.checkLoop, FiresLast]
  | cons b rest ih =>
    cases rest with
    | nil =>
      unfold BreakpointManager.checkLoop
      split <;> simp [BreakpointManager.checkLoop, FiresLast]
    | cons b₂ rest =>
      have hlast : FiresLast state (b :: b₂ :: rest) ↔
          b.hit.shouldBreak state = false ∧ FiresLast state (b₂ :: rest) := by
        simp [FiresLast]
      rw [hlast, ← ih, BreakpointManager.checkLoop]
      cases hfire : b.hit.shouldBreak state with
      | false => simp
      | true =>
        have hne : b₂ ≠ b₂.hit := (hit_ne b₂).symm
        simp [hne]

theorem checkLoop_stops (hb : b ∈ bps) (hfire : b.hit.shouldBreak state = true) :
    (BreakpointManager.checkLoop state bps).2 = true := by
  induction bps with
  | nil => cases hb
  | cons b₁ rest ih =>
    unfold BreakpointManager.checkLoop
    split
    · rfl
    next hquiet =>
      rcases mem_cons.mp hb with rfl | hb
      · exact absurd hfire hquiet
      · exact ih hb

theorem mem_rewriteFirst {id : BitVec 32} {es : List (U64 × List Breakpoint)}
    (h : (a, bps') ∈ BreakpointManager.rewriteFirst id f es) :
    ∃ bps, (a, bps) ∈ es ∧ (bps' = bps ∨ bps' = f bps) := by
  induction es with
  | nil => cases h
  | cons e es ih =>
    unfold BreakpointManager.rewriteFirst at h
    split at h
    · rcases mem_cons.mp h with he | h
      · obtain ⟨rfl, rfl⟩ := Prod.mk.inj he
        exact ⟨e.2, by simp, .inr rfl⟩
      · exact ⟨bps', mem_cons_of_mem _ h, .inl rfl⟩
    · rcases mem_cons.mp h with he | h
      · exact ⟨bps', by simp [he], .inl rfl⟩
      · obtain ⟨bps, he, hb⟩ := ih h
        exact ⟨bps, mem_cons_of_mem _ he, hb⟩

def Kept (b b' : Breakpoint) : Prop := Same b b' ∧ b'.hitCount = b.hitCount

theorem Kept.refl (b : Breakpoint) : Kept b b := ⟨⟨rfl, rfl⟩, rfl⟩

theorem mem_rewriteId {id : BitVec 32} (hf : ∀ bps, ∀ b' ∈ f bps, ∃ b ∈ bps, Kept b b')
    (hget : (m.rewriteId id f).breakpoints.get? a = some bps') (hb : b' ∈ bps') :
    ∃ bps b, m.breakpoints.get? a = some bps ∧ b ∈ bps ∧ Kept b b' := by
  obtain ⟨bps, he, hbps⟩ := mem_rewriteFirst (get?_eq_some_iff.mp hget)
  have hold := get?_eq_some_iff.mpr he
  rcases hbps with rfl | rfl
  · exact ⟨bps', b', hold, hb, .refl b'⟩
  · obtain ⟨b, hmem, hkept⟩ := hf bps b' hb
    exact ⟨bps, b, hold, hmem, hkept⟩

theorem mem_of_other (hadds : c.adds = none) (hchecked : c.checked = none)
    (hget : (c.apply m).breakpoints.get? a = some bps') (hb : b' ∈ bps') :
    ∃ bps b, m.breakpoints.get? a = some bps ∧ b ∈ bps ∧ Kept b b' := by
  cases c with
  | remove id => exact mem_rewriteId (fun bps b hb => ⟨b, mem_of_mem_eraseP hb, .refl b⟩) hget hb
  | enable id enabled =>
    refine mem_rewriteId (fun bps b' hb => ?_) hget hb
    obtain ⟨i, hi, rfl⟩ := mem_iff_getElem.mp hb
    have hlt : i < bps.length := by simpa using hi
    refine ⟨bps[i], getElem_mem hlt, ?_⟩
    rw [getElem_modify]
    split
    · exact ⟨⟨rfl, rfl⟩, rfl⟩
    · exact .refl _
  | _ => simp [Call.adds, Call.checked] at hadds hchecked

theorem nextId_of_other (hadds : c.adds = none) : (c.apply m).nextId = m.nextId := by
  cases c with
  | add a => simp [Call.adds] at hadds
  | addConditional a condition => simp [Call.adds] at hadds
  | remove id => rfl
  | enable id enabled => rfl
  | check a =>
    simp only [Call.apply, BreakpointManager.check, BreakpointManager.checkWithState]
    split <;> rfl
  | checkWithState a state =>
    simp only [Call.apply, BreakpointManager.checkWithState]
    split <;> rfl

theorem apply_of_adds
    (h : c.adds = some (a, condition)) : c.apply m = m.push ⟨m.nextId, a, true, 0, condition⟩ := by
  cases c with
  | add a' =>
    obtain ⟨rfl, rfl⟩ := Prod.mk.inj (some.inj h)
    rfl
  | addConditional a' condition' =>
    obtain ⟨rfl, rfl⟩ := Prod.mk.inj (some.inj h)
    rfl
  | _ => simp [Call.adds] at h

theorem apply_of_checked (h : c.checked = some (a, state)) :
    c.apply m = (m.checkWithState a state).1 := by
  cases c with
  | check a' =>
    obtain ⟨rfl, rfl⟩ := Prod.mk.inj (some.inj h)
    rfl
  | checkWithState a' state' =>
    obtain ⟨rfl, rfl⟩ := Prod.mk.inj (some.inj h)
    rfl
  | _ => simp [Call.checked] at h

theorem checked_of_adds (h : c.adds = some q) : c.checked = none := by
  cases c with
  | add a => rfl
  | addConditional a condition => rfl
  | _ => simp [Call.adds] at h

theorem get?_checkWithState (a a' : U64) :
    (m.checkWithState a state).1.breakpoints.get? a' =
      if a' = a then
        (m.breakpoints.get? a).map fun bps => (BreakpointManager.checkLoop state bps).1
      else m.breakpoints.get? a' := by
  unfold BreakpointManager.checkWithState
  split
  next bps hget => by_cases ha : a' = a <;> simp [OrdMap.get?_insert, ha, hget]
  next hget => by_cases ha : a' = a <;> simp [ha, hget]

theorem get?_push (a' : U64) : (m.push b).breakpoints.get? a' =
    if a' = b.address then some ((m.breakpoints.get? b.address).getD [] ++ [b])
    else m.breakpoints.get? a' := by
  by_cases ha : a' = b.address <;> simp [BreakpointManager.push, OrdMap.get?_insert, ha]

inductive Origin (m : BreakpointManager) (c : Call) (b' : Breakpoint) : Prop where
  | added {condition : Option BreakCondition} (hadds : c.adds = some (b'.address, condition))
      (hid : b'.id = m.nextId) (hcount : b'.hitCount = 0)
  | kept {b : Breakpoint} (hmem : b ∈ m.list) (hkept : Kept b b') (hquiet : c.checks b.address = false)
  | checked {b : Breakpoint} (hmem : b ∈ m.list) (hsame : Same b b') (hc : c.checks b.address = true)

theorem origin (hm : Placed m) (c : Call)
    (hget : (c.apply m).breakpoints.get? a = some bps') (hb : b' ∈ bps') :
    b'.address = a ∧ Origin m c b' := by
  have hold : ∀ {bps b}, m.breakpoints.get? a = some bps → b ∈ bps → b ∈ m.list :=
    fun hget hb => mem_list.mpr ⟨a, _, get?_eq_some_iff.mp hget, hb⟩
  cases hadds : c.adds with
  | some q =>
    obtain ⟨a', condition⟩ := q
    have hquiet : ∀ a, c.checks a = false := fun a => by simp [Call.checks, checked_of_adds hadds]
    rw [apply_of_adds hadds, get?_push] at hget
    dsimp only at hget
    split at hget
    next ha =>
      obtain rfl := some.inj hget
      rcases mem_append.mp hb with hmem | hnew
      · cases hbucket : m.breakpoints.get? a' with
        | none => simp [hbucket] at hmem
        | some bps =>
          rw [hbucket, getD_some] at hmem
          subst ha
          exact ⟨hm a bps hbucket b' hmem, .kept (hold hbucket hmem) (.refl b') (hquiet _)⟩
      · obtain rfl := mem_singleton.mp hnew
        exact ⟨ha.symm, .added hadds rfl rfl⟩
    next => exact ⟨hm a bps' hget b' hb, .kept (hold hget hb) (.refl b') (hquiet _)⟩
  | none =>
    cases hchecked : c.checked with
    | none =>
      obtain ⟨bps, b, hget', hmem, hkept⟩ := mem_of_other hadds hchecked hget hb
      exact ⟨hkept.1.address.trans (hm a bps hget' b hmem),
        .kept (hold hget' hmem) hkept (by simp [Call.checks, hchecked])⟩
    | some q =>
      obtain ⟨a', state⟩ := q
      have hc : ∀ x, c.checks x = decide (a' = x) := fun x => by simp [Call.checks, hchecked]
      rw [apply_of_checked hchecked, get?_checkWithState] at hget
      split at hget
      next ha =>
        subst ha
        obtain ⟨bps, hbucket, rfl⟩ := map_eq_some_iff.mp hget
        obtain ⟨b, hmem, hhit⟩ := exists_of_mem_right (checkLoop_hits state bps) hb
        have haddress := hm a bps hbucket b hmem
        have hsame : Same b b' := by
          rcases hhit with rfl | rfl
          · exact ⟨rfl, rfl⟩
          · exact ⟨rfl, rfl⟩
        exact ⟨hsame.address.trans haddress,
          .checked (hold hbucket hmem) hsame (by rw [hc, haddress]; simp)⟩
      next ha =>
        have haddress := hm a bps' hget b' hb
        exact ⟨haddress, .kept (hold hget hb) (.refl b')
          (by rw [hc, haddress]; simpa using fun h => ha h.symm)⟩

theorem placed_apply (hm : Placed m) (c : Call) : Placed (c.apply m) :=
  fun _ _ hget _ hb => (origin hm c hget hb).1

theorem origin_of_mem (hm : Placed m) (c : Call) (hb : b' ∈ (c.apply m).list) : Origin m c b' := by
  obtain ⟨bps, hget, hb⟩ := (mem_list_iff (placed_apply hm c)).mp hb
  exact (origin hm c hget hb).2

end Steps

section Runs

variable {calls before : List Call} {c : Call} {b : Breakpoint} {n k : ℕ}

theorem placed_run (calls : List Call) : Placed (run calls) := by
  induction calls using List.reverseRecOn with
  | nil => exact fun a bps hget => by simp [run, BreakpointManager.new] at hget
  | append_singleton calls c ih =>
    rw [run_snoc]
    exact placed_apply ih c

theorem countAdds_append (calls calls' : List Call) :
    countAdds (calls ++ calls') = countAdds calls + countAdds calls' :=
  countP_append

theorem countAdds_snoc_of_none (h : c.adds = none) : countAdds (calls ++ [c]) = countAdds calls := by
  simp [countAdds, h]

theorem countAdds_snoc_of_some (h : c.adds = some q) :
    countAdds (calls ++ [c]) = countAdds calls + 1 := by
  simp [countAdds, h]

theorem nextId_run (calls : List Call) : (run calls).nextId = BitVec.ofNat 32 (countAdds calls) := by
  induction calls using List.reverseRecOn with
  | nil => rfl
  | append_singleton calls c ih =>
    rw [run_snoc]
    cases hadds : c.adds with
    | none => rw [nextId_of_other hadds, ih, countAdds_snoc_of_none hadds]
    | some q =>
      obtain ⟨a, condition⟩ := q
      rw [apply_of_adds hadds, countAdds_snoc_of_some hadds, ofNat_add, ← ih]
      rfl

theorem Added.congr {b' : Breakpoint} (h : Added calls b n) (hsame : Same b b') :
    Added calls b' n := by
  obtain ⟨before, d, after, hcalls, hadds, hid, hcount⟩ := h
  exact ⟨before, d, after, hcalls, hsame.address ▸ hadds, hid.trans hsame.id.symm,
    hsame.address ▸ hcount⟩

theorem Added.snoc (h : Added calls b n) (c : Call) :
    Added (calls ++ [c]) b (n + if c.checks b.address then 1 else 0) := by
  obtain ⟨before, d, after, rfl, hadds, hid, rfl⟩ := h
  refine ⟨before, d, after ++ [c], by simp, hadds, hid, ?_⟩
  rw [countP_append, countP_singleton]

theorem added_snoc (h : c.adds = some (b.address, condition))
    (hid : b.id = (run calls).nextId) : Added (calls ++ [c]) b 0 :=
  ⟨calls, c, [], rfl, by simp [h], hid.symm, rfl⟩

theorem eq_of_countAdds_eq {before after before' after' : List Call} {d d' : Call}
    (h : before ++ d :: after = before' ++ d' :: after') (hd : d.adds.isSome)
    (hd' : d'.adds.isSome) (hcount : countAdds before = countAdds before') : after = after' := by
  have hnot : ∀ {xs ys zs ws : List Call} {x y : Call}, xs ++ x :: ys = zs ++ y :: ws →
      x.adds.isSome → countAdds xs = countAdds zs → zs.length ≤ xs.length := by
    intro xs ys zs ws x y heq hx hxs
    by_contra hlt
    obtain ⟨l, rfl⟩ : xs ++ [x] <+: zs := by
      have whole : xs ++ [x] <+: zs ++ y :: ws := heq ▸ ⟨ys, by simp⟩
      exact prefix_of_prefix_length_le whole (prefix_append _ _) (by simp; omega)
    obtain ⟨q, hq⟩ := isSome_iff_exists.mp hx
    rw [countAdds_append, countAdds_snoc_of_some hq] at hxs
    omega
  have hlen : before.length = before'.length :=
    le_antisymm (hnot h.symm hd' hcount.symm) (hnot h hd hcount)
  exact (List.cons.inj (append_inj h hlen).2).2

/-- While the ids have not come round, a breakpoint was added once. -/
theorem Added.unique (hbound : countAdds calls ≤ 2 ^ 32) (h : Added calls b n)
    (h' : Added calls b k) : n = k := by
  obtain ⟨before, d, after, rfl, hadds, hid, rfl⟩ := h
  obtain ⟨before', d', after', hcalls, hadds', hid', rfl⟩ := h'
  have hsome : ∀ {x : Call}, (x.adds.map Prod.fst) = some b.address → x.adds.isSome := by
    intro x hx
    obtain ⟨q, hq, -⟩ := map_eq_some_iff.mp hx
    simp [hq]
  have hlt : ∀ {xs ys : List Call} {x : Call}, x.adds.isSome →
      before ++ d :: after = xs ++ x :: ys → countAdds xs < 2 ^ 32 := by
    intro xs ys x hx heq
    obtain ⟨q, hq⟩ := isSome_iff_exists.mp hx
    rw [heq, countAdds_append, countAdds, countAdds, countP_cons, hq] at hbound
    simp only [isSome_some, if_true] at hbound
    rw [countAdds]
    omega
  have hcount := congrArg BitVec.toNat (hid.trans hid'.symm)
  rw [nextId_run, nextId_run, toNat_ofNat, toNat_ofNat,
    Nat.mod_eq_of_lt (hlt (hsome hadds) rfl), Nat.mod_eq_of_lt (hlt (hsome hadds') hcalls)] at hcount
  rw [eq_of_countAdds_eq hcalls (hsome hadds) (hsome hadds') hcount]

theorem countAdds_lt_of_split {before after : List Call} {d : Call} (hd : d.adds.isSome) :
    countAdds before < countAdds (before ++ d :: after) := by
  obtain ⟨q, hq⟩ := isSome_iff_exists.mp hd
  rw [countAdds_append, countAdds, countAdds, countP_cons, hq]
  simp

theorem exists_split_of_lt {k : ℕ} (h : k < countAdds calls) :
    ∃ before d after, calls = before ++ d :: after ∧ d.adds.isSome ∧ countAdds before = k := by
  induction calls using List.reverseRecOn with
  | nil => simp [countAdds] at h
  | append_singleton calls c ih =>
    by_cases hlt : k < countAdds calls
    · obtain ⟨before, d, after, rfl, hd, hk⟩ := ih hlt
      exact ⟨before, d, after ++ [c], by simp, hd, hk⟩
    · cases hadds : c.adds with
      | none =>
        rw [countAdds_snoc_of_none hadds] at h
        exact absurd h hlt
      | some q =>
        rw [countAdds_snoc_of_some hadds] at h
        exact ⟨calls, c, [], rfl, by simp [hadds], by omega⟩

end Runs

/-- The hit counts behind a run are those of the checks since each breakpoint was added. -/
def Counted (calls : List Call) : Prop :=
  ∀ b ∈ (run calls).list, ∀ n, Added calls b n ↔ b.hitCount.toNat = n

structure Right (before : List Call) (c : Call) : Prop where
  counts : Counted (before ++ [c])
  stops : ∀ a state, c.checked = some (a, state) → ∀ b ∈ (run before).list, b.address = a →
    b.enabled = true → ∀ n, b.condition = some (.hitCount n) → ∀ k, Added before b k →
      n.toNat ≤ k + 1 → ((run before).checkWithState a state).2 = true
  fresh : c.adds.isSome → ∀ before' d after, before = before' ++ d :: after → d.adds.isSome →
    (run before').nextId ≠ (run before).nextId

/-- No breakpoint of the address but the last fires, no counter is at its end, and the ids
have not come round. -/
structure Meets (before : List Call) (c : Call) : Prop where
  adds : c.adds.isSome → countAdds before < 2 ^ 32
  checks : ∀ a state, c.checked = some (a, state) →
    ∀ bps, (run before).breakpoints.get? a = some bps →
      FiresLast state bps ∧ ∀ b ∈ bps, b.hitCount ≠ BitVec.allOnes 64

section HitCounts

variable {before : List Call} {c : Call}

theorem toNat_hit {b : Breakpoint} (h : b.hitCount ≠ BitVec.allOnes 64) :
    b.hit.hitCount.toNat = b.hitCount.toNat + 1 := by
  have hlt := b.hitCount.isLt
  have hne : b.hitCount.toNat ≠ 2 ^ 64 - 1 := fun he =>
    h (eq_of_toNat_eq (he.trans toNat_allOnes.symm))
  have hone : (1 : U64).toNat = 1 := rfl
  simp only [Breakpoint.hit, toNat_add, hone]
  omega

theorem countAdds_snoc_le (hbound : countAdds before ≤ 2 ^ 32) (h : Meets before c) :
    countAdds (before ++ [c]) ≤ 2 ^ 32 := by
  cases hadds : c.adds with
  | none => rwa [countAdds_snoc_of_none hadds]
  | some q =>
    rw [countAdds_snoc_of_some hadds]
    exact h.adds (by simp [hadds])

theorem Counted.snoc (hbound : countAdds before ≤ 2 ^ 32) (hcounted : Counted before)
    (h : Meets before c) : Counted (before ++ [c]) := by
  have hexists : ∀ b' ∈ (run (before ++ [c])).list, Added (before ++ [c]) b' b'.hitCount.toNat := by
    intro b' hb
    rw [run_snoc] at hb
    cases hchecked : c.checked with
    | none =>
      cases origin_of_mem (placed_run before) c hb with
      | added hadds hid hcount =>
        rw [hcount]
        exact added_snoc hadds hid
      | @kept b hmem hkept hquiet =>
        have hadded := ((hcounted b hmem _).mpr rfl).snoc c
        rw [hquiet] at hadded
        rw [hkept.2]
        exact hadded.congr hkept.1
      | @checked b _ _ hc => simp [Call.checks, hchecked] at hc
    | some q =>
      obtain ⟨a, state⟩ := q
      obtain ⟨bps', hget, hb'⟩ := (mem_list_iff (placed_apply (placed_run before) c)).mp hb
      rw [apply_of_checked hchecked, get?_checkWithState] at hget
      split at hget
      next ha =>
        obtain ⟨bps, hbucket, rfl⟩ := map_eq_some_iff.mp hget
        obtain ⟨hlast, hroom⟩ := h.checks a state hchecked bps hbucket
        rw [(checkLoop_eq_hits_iff state bps).mpr hlast] at hb'
        obtain ⟨b, hmem, rfl⟩ := List.mem_map.mp hb'
        have hlisted : b ∈ (run before).list :=
          mem_list.mpr ⟨a, bps, get?_eq_some_iff.mp hbucket, hmem⟩
        have hadded := ((hcounted b hlisted _).mpr rfl).snoc c
        have hc : c.checks b.address = true := by
          simp [Call.checks, hchecked, show b.address = a from ha]
        rw [hc] at hadded
        rw [toNat_hit (hroom b hmem)]
        exact hadded.congr ⟨rfl, rfl⟩
      next ha =>
        have hlisted := (mem_list_iff (placed_run before)).mpr ⟨bps', hget, hb'⟩
        have hadded := ((hcounted b' hlisted _).mpr rfl).snoc c
        have hc : c.checks b'.address = false := by
          simpa [Call.checks, hchecked] using fun h => ha h.symm
        rwa [hc] at hadded
  intro b hb n
  constructor
  · exact fun hn => Added.unique (countAdds_snoc_le hbound h) (hexists b hb) hn
  · rintro rfl
    exact hexists b hb

theorem counted_nil : Counted [] := by
  intro b hb
  simp [run, BreakpointManager.new, BreakpointManager.list] at hb

theorem counted_of_meets (calls : List Call)
    (h : ∀ before c, before ++ [c] <+: calls → Meets before c) :
    countAdds calls ≤ 2 ^ 32 ∧ Counted calls := by
  induction calls using List.reverseRecOn with
  | nil => exact ⟨by simp [countAdds], counted_nil⟩
  | append_singleton calls c ih =>
    obtain ⟨hbound, hcounted⟩ := ih fun before c' hp => h before c' (hp.trans (prefix_append _ _))
    have hmeets := h calls c (prefix_refl _)
    exact ⟨countAdds_snoc_le hbound hmeets, hcounted.snoc hbound hmeets⟩

theorem right_of_meets (hbound : countAdds before ≤ 2 ^ 32) (hcounted : Counted before)
    (h : Meets before c) : Right before c where
  counts := hcounted.snoc hbound h
  stops a state hchecked b hb haddress henabled n hcondition k hk hle := by
    obtain ⟨bps, hget, hmem⟩ := (mem_list_iff (placed_run before)).mp hb
    rw [haddress] at hget
    obtain ⟨-, hroom⟩ := h.checks a state hchecked bps hget
    have hcount := (hcounted b hb k).mp hk
    have hfire : b.hit.shouldBreak state = true := by
      have hreached : n.toNat ≤ b.hit.hitCount.toNat := by
        rw [toNat_hit (hroom b hmem), hcount]
        exact hle
      simpa [Breakpoint.shouldBreak, Breakpoint.hit, henabled, hcondition, le_def] using hreached
    simp only [BreakpointManager.checkWithState, hget]
    exact checkLoop_stops hmem hfire
  fresh hadds before' d after hsplit hd hid := by
    have hlt : countAdds before' < countAdds before := by
      rw [hsplit]
      exact countAdds_lt_of_split hd
    have hroom := h.adds hadds
    rw [nextId_run, nextId_run] at hid
    have hnat := congrArg BitVec.toNat hid
    rw [toNat_ofNat, toNat_ofNat, Nat.mod_eq_of_lt (hlt.trans hroom),
      Nat.mod_eq_of_lt hroom] at hnat
    omega

theorem firesLast_of_counts {state : Option EmulatorState} {bps : List Breakpoint}
    (h : ∀ b b', (b, b') ∈ bps.zip (BreakpointManager.checkLoop state bps).1 →
      b'.hitCount.toNat = b.hitCount.toNat + 1) :
    FiresLast state bps ∧ ∀ b ∈ bps, b.hitCount ≠ BitVec.allOnes 64 := by
  obtain ⟨hlen, hhits⟩ := forall₂_iff_zip.mp (checkLoop_hits state bps)
  have hmap : bps.map Breakpoint.hit = (BreakpointManager.checkLoop state bps).1 := by
    rw [← forall₂_eq_eq_eq, forall₂_map_left_iff, forall₂_iff_zip]
    refine ⟨hlen, fun {b b'} hmem => ?_⟩
    have hcount := h b b' hmem
    rcases hhits hmem with rfl | rfl
    · rfl
    · omega
  refine ⟨(checkLoop_eq_hits_iff state bps).mp hmap.symm, fun b hb hmax => ?_⟩
  have hzip : (b, b.hit) ∈ bps.zip (BreakpointManager.checkLoop state bps).1 := by
    obtain ⟨i, hi, rfl⟩ := mem_iff_getElem.mp hb
    rw [← hmap]
    exact mem_iff_getElem.mpr ⟨i, by simpa using hi, by simp⟩
  have hlt := b.hit.hitCount.isLt
  rw [h b b.hit hzip, hmax, toNat_allOnes] at hlt
  omega

theorem meets_of_right (hbefore : Counted before) (h : Right before c) : Meets before c where
  adds hadds := by
    by_contra hge
    have hlt : countAdds before - 2 ^ 32 < countAdds before := by omega
    obtain ⟨before', d, after, hsplit, hd, hcount⟩ := exists_split_of_lt hlt
    refine h.fresh hadds before' d after hsplit hd (eq_of_toNat_eq ?_)
    rw [nextId_run, nextId_run, toNat_ofNat, toNat_ofNat, hcount]
    omega
  checks a state hchecked bps hget := by
    refine firesLast_of_counts ?_
    have hafter : ∀ b' ∈ (BreakpointManager.checkLoop state bps).1, b' ∈ (run (before ++ [c])).list := by
      intro b' hb
      have hget' : ((run before).checkWithState a state).1.breakpoints.get? a = _ :=
        get?_checkWithState a a
      rw [if_pos rfl, hget, map_some] at hget'
      rw [run_snoc, apply_of_checked hchecked]
      exact mem_list.mpr ⟨a, _, get?_eq_some_iff.mp hget', hb⟩
    have hlisted : ∀ b ∈ bps, b ∈ (run before).list := fun b hb =>
      mem_list.mpr ⟨a, bps, get?_eq_some_iff.mp hget, hb⟩
    have hplaced := placed_run before a bps hget
    intro b b' hzip
    obtain ⟨hb, hb'⟩ := of_mem_zip hzip
    have hhit := (forall₂_iff_zip.mp (checkLoop_hits state bps)).2 hzip
    have hadded := ((hbefore b (hlisted b hb) _).mpr rfl).snoc c
    have hc : c.checks b.address = true := by simp [Call.checks, hchecked, hplaced b hb]
    have hsame : Same b b' := by
      rcases hhit with rfl | rfl
      · exact ⟨rfl, rfl⟩
      · exact ⟨rfl, rfl⟩
    rw [hc] at hadded
    exact (h.counts b' (hafter b' hb') _).mp (hadded.congr hsame)

/-- Every call of a run is right exactly when every call meets the condition. -/
theorem runs_count_hits_iff (calls : List Call) :
    (∀ before c, before ++ [c] <+: calls → Right before c) ↔
      ∀ before c, before ++ [c] <+: calls → Meets before c := by
  constructor
  · intro h before c hp
    refine meets_of_right ?_ (h before c hp)
    induction before using List.reverseRecOn with
    | nil => exact counted_nil
    | append_singleton before c' _ =>
      exact (h before c' ((prefix_append _ _).trans hp)).counts
  · intro h before c hp
    obtain ⟨hbound, hcounted⟩ := counted_of_meets before fun before' c' hp' =>
      h before' c' (hp'.trans ((prefix_append _ _).trans hp))
    exact right_of_meets hbound hcounted (h before c hp)

/-- Two breakpoints of one address: the first fires at every check. -/
def shared : List Call := [.add 0x1000, .addConditional 0x1000 (.hitCount 3)]

def threeChecks : List Call := shared ++ [.check 0x1000, .check 0x1000, .check 0x1000]

/-- Three checks count no hit of the second breakpoint, and with the first one gone the fourth
does not stop. -/
theorem shadowed_breakpoint_counts_no_hit :
    (∃ b ∈ (run threeChecks).list, b.condition = some (.hitCount 3) ∧ b.hitCount = 0) ∧
      ((run (threeChecks ++ [.remove 0])).check 0x1000).2 = false ∧
      ¬ ∀ before c, before ++ [c] <+: threeChecks → Right before c := by
  have hlisted : (⟨1, 0x1000, true, 0, some (.hitCount 3)⟩ : Breakpoint) ∈ (run threeChecks).list := by
    decide
  refine ⟨⟨_, hlisted, rfl, rfl⟩, by decide, fun h => ?_⟩
  have hright := h (shared ++ [.check 0x1000, .check 0x1000]) (.check 0x1000) (prefix_refl _)
  have hadded : Added threeChecks ⟨1, 0x1000, true, 0, some (.hitCount 3)⟩ 3 :=
    ⟨[.add 0x1000], _, _, rfl, rfl, rfl, rfl⟩
  exact absurd ((hright.counts _ hlisted 3).mp hadded) (by decide)

end HitCounts

end Breakpoints
