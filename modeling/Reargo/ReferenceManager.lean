import Reargo.ReferenceParts

/-!
# The reference manager

References kept by source and by target, with a log of the jumps. Whatever is added and in
whatever batches, what is read is what one ordered map of all references would give.
-/
namespace ReferenceManager

open PcodeModel OrderedGroups ReferenceSort ReferenceParts List
open Reference (fromAddr toAddr)

/-- The parts of a map, of increasing ranges from address `0` on. -/
structure RefParts where
  parts : Parts U64 Reference
  ranged : Ranged 0 none parts

namespace RefParts

def of (map : RefMap) (h : Fits 0 none map) : RefParts :=
  ⟨[(0, map)], .last (fun b hb => by cases hb) h⟩

def empty : RefParts := of [] (Fits.nil 0 none)

theorem zero_le (k : U64) : (0 : U64) ≤ k := Nat.zero_le k.toNat

def get (p : RefParts) (address : U64) : Option (List Reference) := getPart p.parts address

/-- Append to the list of an address. -/
def push (p : RefParts) (address : U64) (r : Reference) : RefParts :=
  ⟨extendPart p.parts address [r],
    (extendPart_spec p.ranged (zero_le address) (fun b hb => by cases hb)
      (cons_ne_nil r [])).1⟩

def addGrouped (p : RefParts) (refs : List Reference) (key : Reference → U64)
    (hlen : refs.length ≤ 2 ^ 32) : RefParts :=
  ⟨ReferenceParts.addGrouped p.parts refs key, (addGrouped_spec p.ranged key hlen).1⟩

/-- The entries in address order. -/
def iter (p : RefParts) : RefMap := entries p.parts

/-- The entries of the addresses from `start` up to `stop`. -/
def range (p : RefParts) (start stop : U64) : RefMap := rangeParts p.parts start (stop - 1) stop

end RefParts

structure Batch where
  refs : List Reference
  small : refs.length < 2 ^ 32

structure Manager where
  refsFrom : RefParts
  refsTo : RefParts
  /-- Every jump reference, in the order added. -/
  jumps : List Reference

namespace Manager

def new : Manager := ⟨.empty, .empty, []⟩

def add (m : Manager) (r : Reference) : Manager where
  refsFrom := m.refsFrom.push r.fromAddr r
  refsTo := m.refsTo.push r.toAddr r
  jumps := if r.refType.isJump then m.jumps ++ [r] else m.jumps

/-- Each of the references added, in order; the two maps at the same time. -/
def addAll (m : Manager) (b : Batch) : Manager where
  refsFrom := m.refsFrom.addGrouped b.refs fromAddr (Nat.le_of_lt b.small)
  refsTo := m.refsTo.addGrouped b.refs toAddr (Nat.le_of_lt b.small)
  jumps := m.jumps ++ b.refs.filter fun r => r.refType.isJump

/-- The same on one thread or two. -/
def addAllUnpooled (m : Manager) (b : Batch) : Manager where
  refsFrom := m.refsFrom.addGrouped b.refs fromAddr (Nat.le_of_lt b.small)
  refsTo := m.refsTo.addGrouped b.refs toAddr (Nat.le_of_lt b.small)
  jumps := m.jumps ++ b.refs.filter fun r => r.refType.isJump

def addUnless (m : Manager) (r : Reference) (present : Reference → Bool) : Manager :=
  if ((m.refsFrom.get r.fromAddr).getD []).any present then m
  else
    { refsFrom := m.refsFrom.push r.fromAddr r
      refsTo := m.refsTo.push r.toAddr r
      jumps := if r.refType.isJump then m.jumps ++ [r] else m.jumps }

def getRefsFrom (m : Manager) (address : U64) : List Reference :=
  (m.refsFrom.get address).getD []

def getRefsTo (m : Manager) (address : U64) : List Reference :=
  (m.refsTo.get address).getD []

def jumpRefsByTarget (m : Manager) : List Reference :=
  (m.refsTo.iter.flatMap Prod.snd).filter fun r => r.refType.isJump

def jumpRefsSortedByTarget (m : Manager) : List Reference :=
  listOf m.jumps (sortKeyed (keyed toAddr m.jumps))

def refsToRange (m : Manager) (start stop : U64) : RefMap :=
  if start < stop then m.refsTo.range start stop else []

def refsFromRange (m : Manager) (start stop : U64) : List (List Reference) :=
  (if start < stop then m.refsFrom.range start stop else []).map Prod.snd

def allRefs (m : Manager) : List Reference := m.refsFrom.iter.flatMap Prod.snd

def len (m : Manager) : ℕ := (m.refsFrom.iter.map fun e => e.2.length).sum

end Manager

structure Represents (m : Manager) (log : List Reference) : Prop where
  refsFrom : ∀ k, valuesAt k m.refsFrom.iter = log.filter fun r => r.fromAddr = k
  refsTo : ∀ k, valuesAt k m.refsTo.iter = log.filter fun r => r.toAddr = k
  jumps : m.jumps = log.filter fun r => r.refType.isJump

inductive Op where
  | add (r : Reference)
  | addAll (b : Batch)
  | addAllUnpooled (b : Batch)
  | addUnless (r : Reference) (present : Reference → Bool)

namespace Op

def apply (m : Manager) : Op → Manager
  | .add r => m.add r
  | .addAll b => m.addAll b
  | .addAllUnpooled b => m.addAllUnpooled b
  | .addUnless r present => m.addUnless r present

def record (log : List Reference) : Op → List Reference
  | .add r => log ++ [r]
  | .addAll b => log ++ b.refs
  | .addAllUnpooled b => log ++ b.refs
  | .addUnless r present =>
    if (log.filter fun r' => r'.fromAddr = r.fromAddr).any present then log else log ++ [r]

end Op

def run (m : Manager) (ops : List Op) : Manager := ops.foldl Op.apply m

def recorded (log : List Reference) (ops : List Op) : List Reference := ops.foldl Op.record log

def fromCacheParts (refsFrom refsTo : RefMap) (jumps : List Reference)
    (hfrom : Fits 0 none refsFrom) (hto : Fits 0 none refsTo) : Manager :=
  ⟨.of refsFrom hfrom, .of refsTo hto, jumps⟩

section Runs

variable {m : Manager} {log : List Reference}

theorem RefParts.iter_fits (p : RefParts) : Fits 0 none p.iter := p.ranged.entries_fits

theorem RefParts.get_eq (p : RefParts) (k : U64) : (p.get k).getD [] = valuesAt k p.iter :=
  getPart_eq p.ranged (RefParts.zero_le k)

theorem RefParts.push_spec (p : RefParts) (k : U64) (r : Reference) (k' : U64) :
    valuesAt k' (p.push k r).iter = valuesAt k' p.iter ++ if k = k' then [r] else [] := by
  refine ((extendPart_spec p.ranged (RefParts.zero_le k) (fun b hb => by cases hb)
    (cons_ne_nil r [])).2 k').trans ?_
  by_cases hk : k = k'
  · rw [if_pos hk, if_pos hk]
    rfl
  · rw [if_neg hk, if_neg hk]
    rfl

theorem RefParts.addGrouped_spec (p : RefParts) (refs : List Reference) (key : Reference → U64)
    (hlen : refs.length ≤ 2 ^ 32) (k : U64) :
    valuesAt k (p.addGrouped refs key hlen).iter =
      valuesAt k p.iter ++ refs.filter fun r => key r = k :=
  (ReferenceParts.addGrouped_spec p.ranged key hlen).2 k

theorem represents_new : Represents Manager.new [] :=
  ⟨fun _ => rfl, fun _ => rfl, rfl⟩

theorem filter_snoc (p : Reference → Bool) (log : List Reference) (r : Reference) :
    (log ++ [r]).filter p = log.filter p ++ if p r then [r] else [] := by
  by_cases hp : p r <;> simp [filter_append, hp]

theorem represents_add (h : Represents m log) (r : Reference) :
    Represents (m.add r) (log ++ [r]) := by
  refine ⟨fun k => ?_, fun k => ?_, ?_⟩
  · rw [filter_snoc, ← h.refsFrom k]
    simp only [decide_eq_true_eq]
    exact m.refsFrom.push_spec r.fromAddr r k
  · rw [filter_snoc, ← h.refsTo k]
    simp only [decide_eq_true_eq]
    exact m.refsTo.push_spec r.toAddr r k
  · rw [filter_snoc, ← h.jumps]
    unfold Manager.add
    by_cases hjump : r.refType.isJump = true <;> simp [hjump]

theorem represents_addAll (h : Represents m log) (b : Batch) :
    Represents (m.addAll b) (log ++ b.refs) := by
  have hlen := le_of_lt b.small
  refine ⟨fun k => ?_, fun k => ?_, ?_⟩
  · rw [filter_append, ← h.refsFrom k]
    exact m.refsFrom.addGrouped_spec b.refs fromAddr hlen k
  · rw [filter_append, ← h.refsTo k]
    exact m.refsTo.addGrouped_spec b.refs toAddr hlen k
  · rw [filter_append, ← h.jumps]
    rfl

theorem represents_apply (h : Represents m log) (op : Op) :
    Represents (op.apply m) (op.record log) := by
  cases op with
  | add r => exact represents_add h r
  | addAll b => exact represents_addAll h b
  | addAllUnpooled b => exact represents_addAll h b
  | addUnless r present =>
    have hlist : (m.refsFrom.get r.fromAddr).getD [] =
        log.filter fun r' => r'.fromAddr = r.fromAddr :=
      (m.refsFrom.get_eq r.fromAddr).trans (h.refsFrom r.fromAddr)
    unfold Op.apply Op.record Manager.addUnless
    simp only
    rw [hlist]
    split
    · exact h
    · exact represents_add h r

theorem represents_run (h : Represents m log) (ops : List Op) :
    Represents (run m ops) (recorded log ops) := by
  induction ops generalizing m log with
  | nil => exact h
  | cons op ops ih => exact ih (represents_apply h op)

end Runs

def between (start stop : U64) (map : RefMap) : RefMap :=
  map.filter fun e => start ≤ e.1 ∧ e.1 < stop

/-- Everything read is what one ordered map of the log gives. -/
structure Observes (m : Manager) (log : List Reference) : Prop where
  getRefsFrom : ∀ a, m.getRefsFrom a = log.filter fun r => r.fromAddr = a
  getRefsTo : ∀ a, m.getRefsTo a = log.filter fun r => r.toAddr = a
  refsFromRange : ∀ start stop, m.refsFromRange start stop =
    (between start stop (grouped fromAddr log)).map Prod.snd
  refsToRange : ∀ start stop, m.refsToRange start stop =
    between start stop (grouped toAddr log)
  allRefs : m.allRefs = (grouped fromAddr log).flatMap Prod.snd
  len : m.len = log.length
  jumps : m.jumps = log.filter fun r => r.refType.isJump
  jumpRefsByTarget : m.jumpRefsByTarget =
    ((grouped toAddr log).flatMap Prod.snd).filter fun r => r.refType.isJump
  jumpRefsSortedByTarget : (log.filter fun r => r.refType.isJump).length ≤ 2 ^ 32 →
    m.jumpRefsSortedByTarget = m.jumpRefsByTarget

/-- Two managers that cannot be told apart. -/
structure Alike (m m' : Manager) : Prop where
  getRefsFrom : ∀ a, m.getRefsFrom a = m'.getRefsFrom a
  getRefsTo : ∀ a, m.getRefsTo a = m'.getRefsTo a
  refsFromRange : ∀ start stop, m.refsFromRange start stop = m'.refsFromRange start stop
  refsToRange : ∀ start stop, m.refsToRange start stop = m'.refsToRange start stop
  allRefs : m.allRefs = m'.allRefs
  len : m.len = m'.len
  jumps : m.jumps = m'.jumps
  jumpRefsByTarget : m.jumpRefsByTarget = m'.jumpRefsByTarget
  jumpRefsSortedByTarget : m.jumpRefsSortedByTarget = m'.jumpRefsSortedByTarget

section Reading

variable {m : Manager} {log : List Reference}

theorem iter_eq_grouped {p : RefParts} {key : Reference → U64} {log : List Reference}
    (h : ∀ k, valuesAt k p.iter = log.filter fun r => key r = k) : p.iter = grouped key log := by
  obtain ⟨hfits, hvals⟩ := grouped_spec key log fun r _ => RefParts.zero_le (key r)
  refine p.iter_fits.eq_of_valuesAt hfits fun k => ?_
  rw [h k, hvals k]
  exact filter_congr fun r _ => decide_eq_decide.mpr .rfl

theorem range_eq (p : RefParts) {start stop : U64} (hlt : start < stop) :
    p.range start stop = between start stop p.iter := by
  have hnat : start.toNat < stop.toNat := hlt
  have hsub : (stop - 1).toNat = stop.toNat - 1 := by
    rw [BitVec.toNat_sub_of_le]
    · rfl
    · have hone : (1 : U64).toNat ≤ stop.toNat := Nat.le_trans (Nat.le_add_left 1 _) hnat
      exact hone
  have hle : start ≤ stop - 1 := by
    have hle' : start.toNat ≤ (stop - 1).toNat := by omega
    exact hle'
  have hlast : ∀ k, stop - 1 < k → stop ≤ k := by
    intro k hk
    have hk' : (stop - 1).toNat < k.toNat := hk
    have hge : stop.toNat ≤ k.toNat := by omega
    exact hge
  refine (rangeParts_eq p.ranged (RefParts.zero_le start) hle hlast).trans ?_
  exact filter_congr fun e _ => decide_eq_decide.mpr .rfl

theorem between_eq_nil {start stop : U64} (hnot : ¬ start < stop) (map : RefMap) :
    between start stop map = [] := by
  refine filter_eq_nil_iff.mpr fun e _ hin => hnot ?_
  obtain ⟨hlo, hhi⟩ := of_decide_eq_true hin
  exact lt_of_le_of_lt hlo hhi

theorem range_or_nil (p : RefParts) (start stop : U64) :
    (if start < stop then p.range start stop else []) = between start stop p.iter := by
  by_cases hlt : start < stop
  · rw [if_pos hlt, range_eq p hlt]
  · rw [if_neg hlt, between_eq_nil hlt]

theorem sorted_eq_byTarget {jumps : List Reference} (hlen : jumps.length ≤ 2 ^ 32) :
    listOf jumps (sortKeyed (keyed toAddr jumps)) =
      (grouped toAddr jumps).flatMap Prod.snd := by
  obtain ⟨hfits, hvals⟩ := groupsOf_spec (within_keyed toAddr hlen)
  obtain ⟨hfits', hvals'⟩ := grouped_spec toAddr jumps fun r _ =>
    RefParts.zero_le r.toAddr
  rw [← flatMap_groupsOf]
  congr 1
  refine hfits.eq_of_valuesAt hfits' fun k => ?_
  rw [hvals k, hvals' k, listOf_keyed toAddr hlen k]
  exact filter_congr fun r _ => decide_eq_decide.mpr .rfl

theorem filter_grouped (log : List Reference) (p : Reference → Bool) :
    ((grouped toAddr log).flatMap Prod.snd).filter p =
      (grouped toAddr (log.filter p)).flatMap Prod.snd := by
  obtain ⟨hfits, hvals⟩ := grouped_spec toAddr log fun r _ => RefParts.zero_le r.toAddr
  obtain ⟨hfits', hvals'⟩ := grouped_spec toAddr (log.filter p) fun r _ =>
    RefParts.zero_le r.toAddr
  obtain ⟨hkept, hkeptVals, hflat⟩ := filterGroups_spec p hfits
  rw [← hflat]
  congr 1
  refine hkept.eq_of_valuesAt hfits' fun k => ?_
  rw [hkeptVals k, hvals k, hvals' k, filter_comm]

theorem observes_of_represents (h : Represents m log) : Observes m log := by
  have hfrom := iter_eq_grouped h.refsFrom
  have hto := iter_eq_grouped h.refsTo
  have htargets : m.jumpRefsByTarget =
      ((grouped toAddr log).flatMap Prod.snd).filter fun r => r.refType.isJump := by
    unfold Manager.jumpRefsByTarget
    rw [hto]
  refine ⟨fun a => (m.refsFrom.get_eq a).trans (h.refsFrom a),
    fun a => (m.refsTo.get_eq a).trans (h.refsTo a), fun start stop => ?_, fun start stop => ?_,
    ?_, ?_, h.jumps, htargets, fun hlen => ?_⟩
  · unfold Manager.refsFromRange
    rw [range_or_nil, hfrom]
  · unfold Manager.refsToRange
    rw [range_or_nil, hto]
  · unfold Manager.allRefs
    rw [hfrom]
  · unfold Manager.len
    rw [hfrom, ← (grouped_perm fromAddr log).length_eq, length_flatMap]
  · unfold Manager.jumpRefsSortedByTarget
    rw [htargets, h.jumps, sorted_eq_byTarget hlen, filter_grouped]

theorem alike_of_observes {m' : Manager} (h : Observes m log) (h' : Observes m' log) :
    Alike m m' := by
  refine ⟨fun a => (h.getRefsFrom a).trans (h'.getRefsFrom a).symm,
    fun a => (h.getRefsTo a).trans (h'.getRefsTo a).symm,
    fun start stop => (h.refsFromRange start stop).trans (h'.refsFromRange start stop).symm,
    fun start stop => (h.refsToRange start stop).trans (h'.refsToRange start stop).symm,
    h.allRefs.trans h'.allRefs.symm, h.len.trans h'.len.symm, h.jumps.trans h'.jumps.symm,
    h.jumpRefsByTarget.trans h'.jumpRefsByTarget.symm, ?_⟩
  unfold Manager.jumpRefsSortedByTarget
  rw [h.jumps, h'.jumps]

end Reading

inductive Start where
  | new
  | cached (m : Manager) (log : List Reference) (h : Represents m log)

namespace Start

def manager : Start → Manager
  | .new => Manager.new
  | .cached m _ _ =>
    fromCacheParts m.refsFrom.iter m.refsTo.iter m.jumps m.refsFrom.iter_fits m.refsTo.iter_fits

def log : Start → List Reference
  | .new => []
  | .cached _ log _ => log

theorem represents (start : Start) : Represents start.manager start.log := by
  cases start with
  | new => exact represents_new
  | cached m log h =>
    have hone : ∀ p : RefParts, (RefParts.of p.iter p.iter_fits).iter = p.iter := by
      intro p
      simp [RefParts.of, RefParts.iter, entries]
    refine ⟨fun k => ?_, fun k => ?_, h.jumps⟩
    · exact (congrArg (valuesAt k) (hone m.refsFrom)).trans (h.refsFrom k)
    · exact (congrArg (valuesAt k) (hone m.refsTo)).trans (h.refsTo k)

end Start

/-- The store reads as one ordered map of the references added, however they were batched. -/
theorem store_refines_map (start : Start) (ops : List Op) :
    Observes (run start.manager ops) (recorded start.log ops) ∧
      ∀ ops', recorded start.log ops' = recorded start.log ops →
        Alike (run start.manager ops') (run start.manager ops) := by
  have hobs : ∀ ops, Observes (run start.manager ops) (recorded start.log ops) :=
    fun ops => observes_of_represents (represents_run start.represents ops)
  refine ⟨hobs ops, fun ops' hsame => ?_⟩
  have hops' := hobs ops'
  rw [hsame] at hops'
  exact alike_of_observes hops' (hobs ops)

def firstJump : Reference := ⟨0x1000, 0x2000, .unconditionalJump⟩

def lastJump : Reference := ⟨0x1001, 0x2000, .unconditionalJump⟩

/-- As many jumps as indices, then one more. -/
def wrapOps : List Op :=
  [.addAll ⟨List.replicate (2 ^ 32 - 1) firstJump, by
    rw [length_replicate]
    decide⟩, .add firstJump, .add lastJump]

/-- The index of the last jump wraps: sorting by target reads the first jump for it. -/
theorem wrapped_jump_lost :
    (run Manager.new wrapOps).jumpRefsSortedByTarget ≠ (run Manager.new wrapOps).jumpRefsByTarget := by
  have hrep := represents_run represents_new wrapOps
  have hlog : recorded [] wrapOps = replicate (2 ^ 32) firstJump ++ [lastJump] := by
    have hone : replicate (2 ^ 32 - 1) firstJump ++ [firstJump] =
        replicate (2 ^ 32) firstJump :=
      (replicate_succ' (n := 2 ^ 32 - 1)).symm
    rw [← hone]
    rfl
  rw [hlog] at hrep
  have hjumps : (run Manager.new wrapOps).jumps =
      replicate (2 ^ 32) firstJump ++ [lastJump] := by
    refine hrep.jumps.trans (filter_eq_self.mpr fun r hr => ?_)
    rcases mem_append.mp hr with hr | hr
    · rw [eq_of_mem_replicate hr]
      rfl
    · rw [mem_singleton.mp hr]
      rfl
  have hmem : lastJump ∈ (run Manager.new wrapOps).jumpRefsByTarget := by
    have hobs := observes_of_represents hrep
    rw [hobs.jumpRefsByTarget]
    refine mem_filter.mpr ⟨(grouped_perm toAddr _).mem_iff.mpr ?_, rfl⟩
    exact mem_append_right _ mem_cons_self
  have hnot : lastJump ∉ (run Manager.new wrapOps).jumpRefsSortedByTarget := by
    intro hin
    obtain ⟨e, he, hget⟩ := mem_filterMap.mp hin
    have hkeyed := (sortKeyed_perm _).mem_iff.mp he
    obtain ⟨e', -, rfl⟩ := mem_map.mp hkeyed
    have hlt : e'.2 % 2 ^ 32 < (replicate (2 ^ 32) firstJump).length := by
      rw [length_replicate]
      exact Nat.mod_lt _ (Nat.two_pow_pos 32)
    rw [hjumps, getElem?_append_left hlt] at hget
    have hfirst := eq_of_mem_replicate (mem_of_getElem? hget)
    exact absurd hfirst (by decide)
  exact fun heq => hnot (heq ▸ hmem)

end ReferenceManager
