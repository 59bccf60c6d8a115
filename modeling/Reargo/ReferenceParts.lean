import Reargo.OrderedGroups
import Reargo.ReferenceSort

/-!
# References by address, in parts

The map of a reference manager from each source (or target) address to its references, kept
in parts. A bulk add sorts the batch by address, shares it out over the parts, cuts a part
given too much, merges each part with its share and cuts a part grown too large.
-/
namespace ReferenceParts

open PcodeModel OrderedMap OrderedGroups ReferenceSort List

inductive RefType where
  | unconditionalCall
  | conditionalCall
  | indirectCall
  | unconditionalJump
  | conditionalJump
  | indirectJump
  | dataRead
  | dataWrite
  | dataReadWrite
  | fallThrough
  deriving DecidableEq, Repr

def RefType.isJump : RefType → Bool
  | .unconditionalJump | .conditionalJump | .indirectJump => true
  | _ => false

structure Reference where
  fromAddr : U64
  toAddr : U64
  refType : RefType
  deriving DecidableEq, Repr

/-- The references from (or to) each address, in the order added. -/
abbrev RefMap := Groups U64 Reference

/-- The entries from which a bulk add cuts a map. -/
def minPart : ℕ := 2 ^ 12

/-- About how many parts a bulk add keeps. -/
def partCount : ℕ := 16

/-- The keys of a batch with their indices. -/
def keyed (key : Reference → U64) (refs : List Reference) : List Keyed :=
  refs.zipIdx.map fun e => (key e.1, e.2 % 2 ^ 32)

/-- The references of some keys with their indices. -/
def listOf (refs : List Reference) (g : List Keyed) : List Reference :=
  g.filterMap fun e => refs[e.2]?

/-- Each part's share of the sorted keys, by the starts of the parts after the first. -/
def slices : List U64 → List Keyed → List (List Keyed)
  | [], rest => [rest]
  | start :: starts, rest =>
    rest.takeWhile (fun e => e.1 < start) :: slices starts (rest.dropWhile fun e => e.1 < start)

/-- A part with its share of the batch. -/
abbrev Given := List ((U64 × RefMap) × List Keyed)

def keyAt (slice : List Keyed) (i : ℕ) : Option U64 :=
  slice[i]?.map Prod.fst

/-- Past the references to the key before. -/
def skipSame (slice : List Keyed) : ℕ → ℕ → ℕ
  | 0, i => i
  | fuel + 1, i =>
    if i < slice.length ∧ keyAt slice i = keyAt slice (i - 1) then skipSame slice fuel (i + 1) else i

/-- The cuts at about every share, each at a key's first reference. -/
def cutPoints (slice : List Keyed) (share : ℕ) : ℕ → ℕ → List ℕ
  | 0, _ => []
  | fuel + 1, i =>
    if i < slice.length then
      let c := skipSame slice slice.length i
      (if c < slice.length then [c] else []) ++ cutPoints slice share fuel (c + share)
    else []

def cutSlice (slice : List Keyed) : ℕ → List ℕ → List (List Keyed)
  | start, [] => [slice.drop start]
  | start, c :: cuts => (slice.drop start).take (c - start) :: cutSlice slice c cuts

def cutMap (slice : List Keyed) (cuts : List ℕ) (map : RefMap) : RefMap × Parts U64 Reference :=
  cuts.foldr (fun c st => let k := (keyAt slice c).getD 0
    ((splitOff st.1 k).1, (k, (splitOff st.1 k).2) :: st.2)) (map, [])

def cutPart (share : ℕ) (p : (U64 × RefMap) × List Keyed) : Given :=
  let cuts := cutPoints p.2 share p.2.length share
  let st := cutMap p.2 cuts p.1.2
  ((p.1.1, st.1) :: st.2).zip (cutSlice p.2 0 cuts)

def chunkBy : List Keyed → Groups U64 Keyed
  | [] => []
  | e :: order =>
    match chunkBy order with
    | (k, g) :: rest => if e.1 = k then (k, e :: g) :: rest else (e.1, [e]) :: (k, g) :: rest
    | [] => [(e.1, [e])]

def groupsOf (refs : List Reference) (order : List Keyed) : RefMap :=
  (chunkBy order).map fun g => (g.1, listOf refs g.2)

/-- A merged map kept whole, or cut into parts of equal size when it has grown too large. -/
def finish (share : ℕ) (start : U64) (merged : RefMap) : RefMap × Option (Parts U64 Reference) :=
  if merged.length ≤ 2 * share then (merged, none)
  else
    let count := (merged.length + share - 1) / share
    let n := (merged.length + count - 1) / count
    ([], some (startAt start (partsOf n merged)))

def mergePart (share : ℕ) (refs : List Reference) (start : U64) (map : RefMap)
    (order : List Keyed) : RefMap × Option (Parts U64 Reference) :=
  if order = [] then (map, none)
  else if order.length < map.length then
    let few := extendAll map (groupsOf refs order)
    if few.length ≤ 4 * share then (few, none) else finish share start few
  else finish share start (mergeGroups (groupsOf refs order) map)

/-- The part as it is left, or the parts it was cut into. -/
def partsOrWhole (start : U64) (r : RefMap × Option (Parts U64 Reference)) : Parts U64 Reference :=
  r.2.getD [(start, r.1)]

def partsAfter (share : ℕ) (refs : List Reference) (p : (U64 × RefMap) × List Keyed) :
    Parts U64 Reference :=
  partsOrWhole p.1.1 (mergePart share refs p.1.1 p.1.2 p.2)

def addGrouped (parts : Parts U64 Reference) (refs : List Reference) (key : Reference → U64) :
    Parts U64 Reference :=
  if refs = [] then parts
  else
    let order := sortKeyed (keyed key refs)
    let given := parts.zip (slices (parts.tail.map Prod.fst) order)
    let share := max (((entries parts).length + order.length) / partCount) minPart
    let given' := if given.any (fun p => 2 * share < p.2.length) then given.flatMap (cutPart share)
      else given
    given'.flatMap (partsAfter share refs)

/-- Sorted keys of the range with indices into the batch. -/
structure Within (refs : List Reference) (lo : U64) (hi : Option U64) (order : List Keyed) :
    Prop where
  sorted : order.Pairwise fun a b => a.1 ≤ b.1
  low : ∀ e ∈ order, lo ≤ e.1
  high : ∀ e ∈ order, Below e.1 hi
  index : ∀ e ∈ order, e.2 < refs.length

/-- Parts of increasing ranges, each with keys of its range. -/
inductive Shared (refs : List Reference) : U64 → Option U64 → Given → Prop where
  | last {lo hi m order} : Below lo hi → Fits lo hi m → Within refs lo hi order →
      Shared refs lo hi [((lo, m), order)]
  | cons {lo mid hi m order given} : lo < mid → Fits lo (some mid) m →
      Within refs lo (some mid) order → Shared refs mid hi given →
        Shared refs lo hi (((lo, m), order) :: given)

def picked (refs : List Reference) (k : U64) (order : List Keyed) : List Reference :=
  listOf refs (order.filter fun e => e.1 = k)

variable {order : List Keyed} {given : Given} {parts : Parts U64 Reference}

section Shares

variable {refs : List Reference} {lo mid : U64} {hi : Option U64}

theorem Within.sublist {order' : List Keyed} (h : Within refs lo hi order)
    (hsub : order'.Sublist order) : Within refs lo hi order' :=
  ⟨h.sorted.sublist hsub, fun e he => h.low e (hsub.subset he),
    fun e he => h.high e (hsub.subset he), fun e he => h.index e (hsub.subset he)⟩

theorem Within.takeWhile (h : Within refs lo hi order) (k : U64) :
    Within refs lo (some k) (order.takeWhile fun e => e.1 < k) := by
  have hsub := h.sublist (takeWhile_sublist fun e => decide (e.1 < k))
  refine ⟨hsub.sorted, hsub.low, fun e he b hb => ?_, hsub.index⟩
  rw [← Option.some.inj hb]
  simpa using mem_takeWhile_imp he

theorem Within.dropWhile (h : Within refs lo hi order) (k : U64) :
    Within refs k hi (order.dropWhile fun e => e.1 < k) := by
  have hsub := h.sublist (dropWhile_sublist fun e => decide (e.1 < k))
  exact ⟨hsub.sorted, fun e he => not_lt.mp (of_decide_eq_false (dropWhile_false
    (front_of_lt h.sorted fun _ => decide_eq_true_iff) e he)), hsub.high, hsub.index⟩

theorem shared_slices (h : Ranged lo hi parts) (ho : Within refs lo hi order) :
    Shared refs lo hi (parts.zip (slices (parts.tail.map Prod.fst) order)) ∧
      (parts.zip (slices (parts.tail.map Prod.fst) order)).flatMap (fun p => p.1.2) =
        entries parts ∧
      (parts.zip (slices (parts.tail.map Prod.fst) order)).flatMap Prod.snd = order := by
  induction h generalizing order with
  | last hlo hm =>
    refine ⟨.last hlo hm ho, rfl, ?_⟩
    simp [slices]
  | @cons lo mid hi m rest hlt hm hrest ih =>
    obtain ⟨m', rest', rfl⟩ := hrest.exists_cons
    obtain ⟨hshared, hmaps, horder⟩ := ih (ho.dropWhile mid)
    refine ⟨.cons hlt hm (ho.takeWhile mid) hshared, ?_, ?_⟩
    · exact congrArg (m ++ ·) hmaps
    · refine (congrArg (order.takeWhile (fun e => e.1 < mid) ++ ·) horder).trans ?_
      exact takeWhile_append_dropWhile

theorem Shared.low_maps (h : Shared refs lo hi given) :
    ∀ e ∈ given.flatMap (fun p => p.1.2), lo ≤ e.1 := by
  induction h with
  | last _ hm _ =>
    intro e he
    rw [flatMap_singleton] at he
    exact hm.low e he
  | cons hlt hm _ _ ih =>
    intro e he
    rw [flatMap_cons] at he
    exact (mem_append.mp he).elim (hm.low e) fun he' => (le_of_lt hlt).trans (ih e he')

theorem Shared.append {given' : Given} (h : Shared refs lo (some mid) given)
    (h' : Shared refs mid hi given') : Shared refs lo hi (given ++ given') := by
  generalize hmid : some mid = b at h
  induction h with
  | last hlo hm ho =>
    subst hmid
    exact .cons (hlo mid rfl) hm ho h'
  | cons hlt hm ho _ ih => exact .cons hlt hm ho (ih hmid)

/-- What is done to each part on its own, within its range, is done to all. -/
theorem shared_flatMap {f : (U64 × RefMap) × List Keyed → Given}
    (hf : ∀ {lo hi m order}, Below lo hi → Fits lo hi m → Within refs lo hi order →
    Shared refs lo hi (f ((lo, m), order)) ∧ (f ((lo, m), order)).flatMap (fun p => p.1.2) = m ∧
    (f ((lo, m), order)).flatMap Prod.snd = order) (h : Shared refs lo hi given) :
    Shared refs lo hi (given.flatMap f) ∧
      (given.flatMap f).flatMap (fun p => p.1.2) = given.flatMap (fun p => p.1.2) ∧
      (given.flatMap f).flatMap Prod.snd = given.flatMap Prod.snd := by
  induction h with
  | last hlo hm ho =>
    obtain ⟨hshared, hmaps, horder⟩ := hf hlo hm ho
    simp only [flatMap_singleton]
    exact ⟨hshared, hmaps, horder⟩
  | @cons lo mid hi m order rest hlt hm ho hrest ih =>
    have hbelow : Below lo (some mid) := fun b hb => Option.some.inj hb ▸ hlt
    obtain ⟨hshared, hmaps, horder⟩ := hf hbelow hm ho
    obtain ⟨hshared', hmaps', horder'⟩ := ih
    refine ⟨hshared.append hshared', ?_, ?_⟩
    · simp only [flatMap_cons, flatMap_append] at hmaps' ⊢
      rw [hmaps, hmaps']
    · simp only [flatMap_cons, flatMap_append] at horder' ⊢
      rw [horder, horder']

end Shares

structure KeyStart (slice : List Keyed) (c : ℕ) : Prop where
  pos : 0 < c
  lt : c < slice.length
  new : keyAt slice c ≠ keyAt slice (c - 1)

theorem skipSame_spec {slice : List Keyed} (fuel : ℕ) {i : ℕ} (hfuel : slice.length ≤ i + fuel) :
    i ≤ skipSame slice fuel i ∧ (skipSame slice fuel i < slice.length →
        keyAt slice (skipSame slice fuel i) ≠ keyAt slice (skipSame slice fuel i - 1)) := by
  induction fuel generalizing i with
  | zero => exact ⟨le_refl i, fun h => absurd h (not_lt.mpr hfuel)⟩
  | succ fuel ih =>
    unfold skipSame
    by_cases hsame : i < slice.length ∧ keyAt slice i = keyAt slice (i - 1)
    · rw [if_pos hsame]
      obtain ⟨hle, hnew⟩ := ih (i := i + 1) (by omega)
      exact ⟨by omega, hnew⟩
    · rw [if_neg hsame]
      exact ⟨le_refl i, fun hlt heq => hsame ⟨hlt, heq⟩⟩

theorem cutPoints_spec (slice : List Keyed) {share : ℕ} (hshare : 0 < share) (fuel : ℕ) {i : ℕ}
    (hi : 0 < i) :
    (cutPoints slice share fuel i).Pairwise (· < ·) ∧
      ∀ c ∈ cutPoints slice share fuel i, i ≤ c ∧ KeyStart slice c := by
  induction fuel generalizing i with
  | zero => exact ⟨List.Pairwise.nil, fun c hc => absurd hc not_mem_nil⟩
  | succ fuel ih =>
    unfold cutPoints
    by_cases hlt : i < slice.length
    · rw [if_pos hlt]
      obtain ⟨hle, hnew⟩ := skipSame_spec slice.length (Nat.le_add_left slice.length i)
      simp only
      generalize skipSame slice slice.length i = c at hle hnew
      obtain ⟨hasc, hall⟩ := ih (i := c + share) (by omega)
      by_cases hc : c < slice.length
      · rw [if_pos hc, singleton_append]
        refine ⟨pairwise_cons.mpr ⟨fun d hd => ?_, hasc⟩, fun d hd => ?_⟩
        · have hd' := (hall d hd).1
          omega
        · rcases mem_cons.mp hd with rfl | hd
          · exact ⟨hle, by omega, hc, hnew hc⟩
          · exact ⟨(hle.trans (Nat.le_add_right c share)).trans (hall d hd).1, (hall d hd).2⟩
      · rw [if_neg hc, nil_append]
        exact ⟨hasc, fun d hd =>
          ⟨(hle.trans (Nat.le_add_right c share)).trans (hall d hd).1, (hall d hd).2⟩⟩
    · rw [if_neg hlt]
      exact ⟨List.Pairwise.nil, fun c hc => absurd hc not_mem_nil⟩

variable {m : RefMap}

section Cuts

variable {refs : List Reference} {lo mid : U64} {hi : Option U64} {slice : List Keyed}

theorem KeyStart.split {c : ℕ} (hc : KeyStart slice c) (hs : slice.Pairwise fun a b => a.1 ≤ b.1) :
    ∃ e, slice[c]? = some e ∧ (keyAt slice c).getD 0 = e.1 ∧ (∀ e' ∈ slice.take c, e'.1 < e.1) ∧
      ∀ e' ∈ slice.drop c, e.1 ≤ e'.1 := by
  obtain ⟨c, rfl⟩ := Nat.exists_eq_add_of_lt hc.pos
  rw [zero_add] at hc ⊢
  have hlast := hc.lt
  have hget : slice[c + 1]? = some slice[c + 1] := getElem?_eq_getElem hlast
  have hget' : slice[c]? = some slice[c] := getElem?_eq_getElem (by omega)
  have hpair := pairwise_iff_getElem.mp hs
  refine ⟨slice[c + 1], hget, by simp [keyAt, hget], fun e' he' => ?_, fun e' he' => ?_⟩
  · obtain ⟨j, hj, rfl⟩ := getElem_of_mem he'
    rw [length_take] at hj
    rw [getElem_take]
    have hne : slice[c].1 ≠ slice[c + 1].1 := by
      have hnew := hc.new
      rw [Nat.add_sub_cancel] at hnew
      simpa [keyAt, hget, hget', eq_comm] using hnew
    have hlt := lt_of_le_of_ne (hpair c (c + 1) (by omega) hlast (Nat.lt_succ_self c)) hne
    by_cases hjc : j = c
    · subst hjc
      exact hlt
    · exact (hpair j c (by omega) (by omega) (by omega)).trans_lt hlt
  · obtain ⟨j, hj, rfl⟩ := getElem_of_mem he'
    rw [length_drop] at hj
    rw [getElem_drop]
    by_cases hzero : j = 0
    · subst hzero
      exact le_refl _
    · exact hpair (c + 1) (c + 1 + j) hlast (by omega) (by omega)

theorem Shared.split_first {before after : List Keyed} {rest : Given} {k : U64}
    (h : Shared refs lo hi (((lo, m), before ++ after) :: rest)) (hbefore : ∀ e ∈ before, e.1 < k)
    (hafter : ∀ e ∈ after, k ≤ e.1) (hne : before ≠ []) (hk : ∃ e ∈ after, e.1 = k) :
    Shared refs lo hi (((lo, (splitOff m k).1), before) :: ((k, (splitOff m k).2), after) :: rest) := by
  obtain ⟨e₀, he₀⟩ := exists_mem_of_ne_nil before hne
  obtain ⟨e₁, he₁, rfl⟩ := hk
  have hhalves : ∀ {hi : Option U64}, Within refs lo hi (before ++ after) →
      lo < e₁.1 ∧ Below e₁.1 hi ∧ Within refs lo (some e₁.1) before ∧ Within refs e₁.1 hi after := by
    intro hi ho
    have hb := ho.sublist (sublist_append_left before after)
    have ha := ho.sublist (sublist_append_right before after)
    refine ⟨(hb.low e₀ he₀).trans_lt (hbefore e₀ he₀), ha.high e₁ he₁,
      ⟨hb.sorted, hb.low, fun e he b hb' => ?_, hb.index⟩, ⟨ha.sorted, hafter, ha.high, ha.index⟩⟩
    rw [← Option.some.inj hb']
    exact hbefore e he
  cases h with
  | last hlo hm ho =>
    obtain ⟨hlt, hbelow, hb, ha⟩ := hhalves ho
    exact .cons hlt (hm.splitOff_left _) hb (.last hbelow (hm.splitOff_right _) ha)
  | cons hlt hm ho hrest =>
    obtain ⟨hlt', hbelow, hb, ha⟩ := hhalves ho
    exact .cons hlt' (hm.splitOff_left _) hb (.cons (hbelow _ rfl) (hm.splitOff_right _) ha hrest)

variable (slice) in
theorem cutSlice_cons {start c : ℕ} {cuts : List ℕ} (hle : start ≤ c) (hcuts : ∀ d ∈ cuts, c < d) :
    ∃ piece pieces, cutSlice slice c cuts = piece :: pieces ∧
      cutSlice slice start cuts = ((slice.drop start).take (c - start) ++ piece) :: pieces ∧
        piece <+: slice.drop c ∧ (c < slice.length → piece ≠ []) := by
  have hsplit : (slice.drop start).take (c - start) ++ slice.drop c = slice.drop start := by
    have happ := take_append_drop (c - start) (slice.drop start)
    rw [drop_drop, Nat.add_sub_cancel' hle] at happ
    exact happ
  cases cuts with
  | nil =>
    refine ⟨slice.drop c, [], rfl, ?_, prefix_rfl, fun hlt hnil => ?_⟩
    · rw [hsplit]
      rfl
    · have hlen := congrArg List.length hnil
      rw [length_drop, length_nil] at hlen
      omega
  | cons d cuts =>
    have hcd := hcuts d mem_cons_self
    refine ⟨(slice.drop c).take (d - c), cutSlice slice d cuts, rfl, ?_, take_prefix _ _,
      fun hlt hnil => ?_⟩
    · have htake : (slice.drop start).take (c - start) ++ (slice.drop c).take (d - c) =
          (slice.drop start).take (d - start) := by
        have hadd : d - start = (c - start) + (d - c) := by omega
        rw [hadd, take_add, drop_drop, Nat.add_sub_cancel' hle]
      rw [htake]
      rfl
    · have hlen := congrArg List.length hnil
      rw [length_take, length_drop, length_nil] at hlen
      omega

theorem cut_shared (hs : slice.Pairwise fun a b => a.1 ≤ b.1) {start : ℕ} (cuts : List ℕ)
    (hasc : cuts.Pairwise (· < ·)) (hcuts : ∀ c ∈ cuts, start < c ∧ KeyStart slice c)
    (hlo : Below lo hi) (hm : Fits lo hi m) (ho : Within refs lo hi (slice.drop start)) :
    let parts := ((lo, (cutMap slice cuts m).1) :: (cutMap slice cuts m).2).zip
      (cutSlice slice start cuts)
    Shared refs lo hi parts ∧ parts.flatMap (fun p => p.1.2) = m ∧
      parts.flatMap Prod.snd = slice.drop start := by
  induction cuts with
  | nil =>
    refine ⟨.last hlo hm ho, ?_, ?_⟩
    · simp [cutMap, cutSlice]
    · simp [cutMap, cutSlice]
  | cons c cuts ih =>
    obtain ⟨hlater, hasc'⟩ := pairwise_cons.mp hasc
    obtain ⟨hstart, hc⟩ := hcuts c mem_cons_self
    obtain ⟨hshared, hmaps, horders⟩ := ih hasc' fun d hd => hcuts d (mem_cons_of_mem _ hd)
    obtain ⟨e, he, hkey, hbefore, hafter⟩ := hc.split hs
    obtain ⟨piece, pieces, hpiece, hwhole, hpre, hne⟩ :=
      cutSlice_cons slice (le_of_lt hstart) hlater
    rw [hwhole] at hshared hmaps horders
    have hcons : cutSlice slice start (c :: cuts) =
        (slice.drop start).take (c - start) :: piece :: pieces := by
      rw [← hpiece]
      rfl
    have hmap : cutMap slice (c :: cuts) m = ((splitOff (cutMap slice cuts m).1 e.1).1,
          (e.1, (splitOff (cutMap slice cuts m).1 e.1).2) :: (cutMap slice cuts m).2) := by
      rw [← hkey]
      rfl
    simp only [hcons, hmap]
    generalize cutMap slice cuts m = st at hshared hmaps horders
    have hbound := hc.lt
    have hhead : piece[0]? = some e := by
      obtain ⟨e', rest, hrest⟩ := exists_cons_of_ne_nil (hne hbound)
      obtain ⟨more, hmore⟩ := hpre
      have hzero : (slice.drop c)[0]? = some e := by
        rw [getElem?_drop]
        exact he
      rw [← hmore, hrest] at hzero
      rw [hrest]
      exact hzero
    have htakeSub : ∀ e' ∈ (slice.drop start).take (c - start), e'.1 < e.1 := by
      intro e' he'
      refine hbefore e' ?_
      rw [← drop_take] at he'
      exact mem_of_mem_drop he'
    have hnonempty : (slice.drop start).take (c - start) ≠ [] := by
      intro hnil
      have hlen := congrArg List.length hnil
      rw [length_take, length_drop, length_nil] at hlen
      omega
    refine ⟨?_, ?_, ?_⟩
    · exact hshared.split_first htakeSub (fun e' he' => hafter e' (hpre.subset he')) hnonempty
        ⟨e, mem_of_getElem? hhead, rfl⟩
    · have hfits : Fits lo hi (st.1 ++ (st.2.zip pieces).flatMap fun p => p.1.2) := by
        have happ : st.1 ++ (st.2.zip pieces).flatMap (fun p => p.1.2) = m := hmaps
        rw [happ]
        exact hm
      have hjoin := splitOff_append hfits.of_append.1.ascending e.1
      rw [← hmaps]
      simp only [zip_cons_cons, flatMap_cons]
      rw [← append_assoc, hjoin]
    · refine Eq.trans ?_ horders
      simp [append_assoc]

theorem cutPart_spec {share : ℕ} (hshare : 0 < share)
    (hlo : Below lo hi) (hm : Fits lo hi m) (ho : Within refs lo hi order) :
    Shared refs lo hi (cutPart share ((lo, m), order)) ∧
      (cutPart share ((lo, m), order)).flatMap (fun p => p.1.2) = m ∧
      (cutPart share ((lo, m), order)).flatMap Prod.snd = order := by
  obtain ⟨hasc, hcuts⟩ := cutPoints_spec order hshare order.length hshare
  exact cut_shared ho.sorted _ hasc
    (fun c hc => ⟨hshare.trans_le (hcuts c hc).1, (hcuts c hc).2⟩) hlo hm ho

end Cuts

section Merging

variable {refs : List Reference} {lo : U64} {hi : Option U64}

theorem chunkBy_spec (ho : Within refs lo hi order) : Fits lo hi (chunkBy order) ∧
      (∀ k, valuesAt k (chunkBy order) = order.filter fun e => e.1 = k) ∧
      ∀ g ∈ chunkBy order, (∃ e ∈ order, e.1 = g.1) ∧ ∀ e ∈ g.2, e ∈ order := by
  induction order with
  | nil => exact ⟨Fits.nil lo hi, fun k => rfl, fun g hg => absurd hg not_mem_nil⟩
  | cons e order ih =>
    obtain ⟨hle, -⟩ := pairwise_cons.mp ho.sorted
    obtain ⟨hfits, hvals, hmem⟩ := ih (ho.sublist (sublist_cons_self e order))
    have hlow := ho.low e mem_cons_self
    have hhigh := ho.high e mem_cons_self
    have hmem' : ∀ g ∈ chunkBy order, (∃ e' ∈ e :: order, e'.1 = g.1) ∧
        ∀ e' ∈ g.2, e' ∈ e :: order := by
      intro g hg
      obtain ⟨⟨e', he', hkey⟩, hall⟩ := hmem g hg
      exact ⟨⟨e', mem_cons_of_mem _ he', hkey⟩, fun e'' he'' => mem_cons_of_mem _ (hall e'' he'')⟩
    -- a run of its own for the new key
    have halone : (∀ g ∈ chunkBy order, e.1 < g.1) → Fits lo hi ((e.1, [e]) :: chunkBy order) ∧
        (∀ k, valuesAt k ((e.1, [e]) :: chunkBy order) = (e :: order).filter fun e => e.1 = k) ∧
        ∀ g ∈ (e.1, [e]) :: chunkBy order, (∃ e' ∈ e :: order, e'.1 = g.1) ∧
          ∀ e' ∈ g.2, e' ∈ e :: order := by
      intro hlt
      refine ⟨hfits.cons (cons_ne_nil _ _) hlow hhigh hlt, fun k => ?_,
        forall_mem_cons.mpr ⟨⟨⟨e, mem_cons_self, rfl⟩, fun e' he' => ?_⟩, hmem'⟩⟩
      · rw [valuesAt_cons, hvals k]
        by_cases hk : e.1 = k <;> simp [hk]
      · rw [mem_singleton.mp he']
        exact mem_cons_self
    unfold chunkBy
    cases hchunks : chunkBy order with
    | nil =>
      rw [hchunks] at halone
      exact halone fun g hg => absurd hg not_mem_nil
    | cons g rest =>
      obtain ⟨k₀, vs⟩ := g
      rw [hchunks] at hfits hvals hmem hmem' halone
      obtain ⟨⟨e₀, he₀, hk₀⟩, hvs⟩ := hmem (k₀, vs) mem_cons_self
      have hle₀ : e.1 ≤ k₀ := (hle e₀ he₀).trans (le_of_eq hk₀)
      have hlow₀ := hfits.low (k₀, vs) mem_cons_self
      have hhigh₀ := hfits.high (k₀, vs) mem_cons_self
      simp only
      by_cases hsame : e.1 = k₀
      · rw [if_pos hsame]
        refine ⟨hfits.tail.cons (cons_ne_nil _ _) hlow₀ hhigh₀ hfits.head_lt, fun k => ?_,
          forall_mem_cons.mpr ⟨⟨⟨e, mem_cons_self, hsame⟩, fun e' he' => ?_⟩,
            fun g hg => hmem' g (mem_cons_of_mem _ hg)⟩⟩
        · have hk := hvals k
          rw [valuesAt_cons] at hk ⊢
          by_cases hkk : k₀ = k
          · subst hkk
            rw [if_pos rfl] at hk ⊢
            simp [hsame, ← hk]
          · rw [if_neg hkk] at hk ⊢
            have hek : ¬ e.1 = k := fun h => hkk (hsame.symm.trans h)
            simp [hek, ← hk]
        · rcases mem_cons.mp he' with rfl | he'
          · exact mem_cons_self
          · exact mem_cons_of_mem _ (hvs e' he')
      · rw [if_neg hsame]
        have hlt : e.1 < k₀ := lt_of_le_of_ne hle₀ hsame
        exact halone (forall_mem_cons.mpr ⟨hlt, fun g hg => hlt.trans (hfits.head_lt g hg)⟩)

theorem listOf_append (refs : List Reference) (g g' : List Keyed) :
    listOf refs (g ++ g') = listOf refs g ++ listOf refs g' := by
  simp [listOf]

theorem flatMap_chunkBy (order : List Keyed) : (chunkBy order).flatMap Prod.snd = order := by
  induction order with
  | nil => rfl
  | cons e order ih =>
    unfold chunkBy
    cases hchunks : chunkBy order with
    | nil =>
      rw [hchunks] at ih
      simpa using ih
    | cons g rest =>
      rw [hchunks] at ih
      simp only
      by_cases hsame : e.1 = g.1
      · rw [if_pos hsame]
        simpa using ih
      · rw [if_neg hsame]
        simpa using ih

theorem flatMap_groupsOf (refs : List Reference) (order : List Keyed) :
    (groupsOf refs order).flatMap Prod.snd = listOf refs order := by
  have hlists : ∀ groups : Groups U64 Keyed,
      (groups.map fun g => (g.1, listOf refs g.2)).flatMap Prod.snd =
        listOf refs (groups.flatMap Prod.snd) := by
    intro groups
    induction groups with
    | nil => rfl
    | cons g groups ih => rw [map_cons, flatMap_cons, flatMap_cons, ih, listOf_append]
  exact (hlists _).trans (congrArg (listOf refs) (flatMap_chunkBy order))

theorem groupsOf_spec (ho : Within refs lo hi order) : Fits lo hi (groupsOf refs order) ∧
      ∀ k, valuesAt k (groupsOf refs order) = picked refs k order := by
  obtain ⟨hfits, hvals, hmem⟩ := chunkBy_spec ho
  unfold groupsOf
  constructor
  · refine ⟨?_, fun g hg => ?_, fun g hg => ?_, fun g hg => ?_⟩
    · rw [map_map]
      exact hfits.ascending
    · obtain ⟨g', hg', rfl⟩ := mem_map.mp hg
      obtain ⟨e, he⟩ := exists_mem_of_ne_nil _ (hfits.nonempty g' hg')
      have hindex := ho.index e ((hmem g' hg').2 e he)
      exact ne_nil_of_mem (mem_filterMap.mpr ⟨e, he, getElem?_eq_getElem hindex⟩)
    · obtain ⟨g', hg', rfl⟩ := mem_map.mp hg
      exact hfits.low g' hg'
    · obtain ⟨g', hg', rfl⟩ := mem_map.mp hg
      exact hfits.high g' hg'
  · intro k
    unfold picked
    rw [← hvals k]
    generalize chunkBy order = groups
    induction groups with
    | nil => rfl
    | cons g groups ih =>
      rw [map_cons, valuesAt_cons, valuesAt_cons, ih, listOf_append]
      by_cases hk : g.1 = k
      · rw [if_pos hk, if_pos hk]
      · rw [if_neg hk, if_neg hk]
        rfl

theorem finish_spec (share : ℕ) {merged : RefMap} (hlo : Below lo hi) (h : Fits lo hi merged) :
    Ranged lo hi (partsOrWhole lo (finish share lo merged)) ∧
      entries (partsOrWhole lo (finish share lo merged)) = merged := by
  unfold finish
  by_cases hsmall : merged.length ≤ 2 * share
  · rw [if_pos hsmall]
    refine ⟨.last hlo h, ?_⟩
    simp [partsOrWhole, entries]
  · rw [if_neg hsmall]
    cases hm : merged with
    | nil =>
      rw [hm, length_nil] at hsmall
      omega
    | cons e rest =>
      rw [hm] at h
      obtain ⟨hranged, hentries⟩ := partsOf_spec _ h rfl
      obtain ⟨hranged', hentries'⟩ := startAt_spec hranged (h.low e mem_cons_self)
      exact ⟨hranged', hentries'.trans hentries⟩

theorem partsAfter_spec (share : ℕ) (hlo : Below lo hi)
    (hm : Fits lo hi m) (ho : Within refs lo hi order) :
    Ranged lo hi (partsAfter share refs ((lo, m), order)) ∧
      ∀ k, valuesAt k (entries (partsAfter share refs ((lo, m), order))) =
        valuesAt k m ++ picked refs k order := by
  obtain ⟨hgroups, hpicked⟩ := groupsOf_spec ho
  obtain ⟨hfits, hvals⟩ := extendAll_spec hm fun g hg =>
    ⟨hgroups.nonempty g hg, hgroups.low g hg, hgroups.high g hg⟩
  have hmerged : mergeGroups (groupsOf refs order) m = extendAll m (groupsOf refs order) :=
    mergeGroups_eq hm.ascending hgroups.ascending
  have hwhole : ∀ merged : RefMap, merged = extendAll m (groupsOf refs order) →
      ∀ k, valuesAt k merged = valuesAt k m ++ picked refs k order := by
    intro merged heq k
    rw [heq, hvals k, hpicked k]
  unfold partsAfter mergePart
  simp only
  by_cases hnone : order = []
  · rw [if_pos hnone]
    refine ⟨.last hlo hm, fun k => ?_⟩
    simp [partsOrWhole, entries, hnone, picked, listOf]
  · rw [if_neg hnone]
    have hfinish : Ranged lo hi
        (partsOrWhole lo (finish share lo (extendAll m (groupsOf refs order)))) ∧
          ∀ k, valuesAt k (entries
            (partsOrWhole lo (finish share lo (extendAll m (groupsOf refs order))))) =
              valuesAt k m ++ picked refs k order := by
      obtain ⟨hranged, hentries⟩ := finish_spec share hlo hfits
      exact ⟨hranged, hwhole _ hentries⟩
    by_cases hfew : order.length < m.length
    · rw [if_pos hfew]
      by_cases hkept : (extendAll m (groupsOf refs order)).length ≤ 4 * share
      · rw [if_pos hkept]
        refine ⟨.last hlo hfits, hwhole _ ?_⟩
        simp [partsOrWhole, entries]
      · rw [if_neg hkept]
        exact hfinish
    · rw [if_neg hfew, hmerged]
      exact hfinish

theorem merged_spec (share : ℕ) (h : Shared refs lo hi given) :
    Ranged lo hi (given.flatMap (partsAfter share refs)) ∧
      ∀ k, valuesAt k (entries (given.flatMap (partsAfter share refs))) =
        valuesAt k (given.flatMap fun p => p.1.2) ++ picked refs k (given.flatMap Prod.snd) := by
  have hentries : ∀ ps ps' : Parts U64 Reference, entries (ps ++ ps') = entries ps ++ entries ps' :=
    fun ps ps' => flatMap_append
  induction h with
  | last hlo hm ho =>
    simp only [flatMap_singleton]
    exact partsAfter_spec share hlo hm ho
  | @cons lo mid hi m order given hlt hm ho hrest ih =>
    have hbelow : Below lo (some mid) := fun b hb => Option.some.inj hb ▸ hlt
    obtain ⟨hranged, hvals⟩ := partsAfter_spec share hbelow hm ho
    obtain ⟨hranged', hvals'⟩ := ih
    rw [flatMap_cons]
    refine ⟨hranged.append hranged', fun k => ?_⟩
    have hpicked : ∀ a b : List Keyed, picked refs k (a ++ b) = picked refs k a ++ picked refs k b := by
      intro a b
      unfold picked
      rw [filter_append, listOf_append]
    rw [hentries, valuesAt_append, hvals k, hvals' k, flatMap_cons, flatMap_cons,
      valuesAt_append, hpicked]
    -- a key of the first part is not one of the others
    by_cases hk : k < mid
    · have hnil : valuesAt k (given.flatMap fun p => p.1.2) = [] :=
        valuesAt_eq_nil fun e he => ne_of_gt (hk.trans_le (hrest.low_maps e he))
      simp [hnil]
    · have hnil : picked refs k order = [] := by
        have hnone : order.filter (fun e => e.1 = k) = [] := by
          refine filter_eq_nil_iff.mpr fun e he heq => hk ?_
          rw [← of_decide_eq_true heq]
          exact ho.high e he mid rfl
        unfold picked
        rw [hnone]
        rfl
      simp [hnil]

end Merging

variable {refs : List Reference}

section

variable (key : Reference → U64) (hlen : refs.length ≤ 2 ^ 32)

include key hlen

theorem keyed_index : keyed key refs = refs.zipIdx.map fun e => (key e.1, e.2) := by
  unfold keyed
  refine map_congr_left fun e he => ?_
  obtain ⟨r, i⟩ := e
  have hlt := (List.getElem?_eq_some_iff.mp (mem_zipIdx_iff_getElem?.mp he)).1
  rw [Nat.mod_eq_of_lt (hlt.trans_le hlen)]

theorem keyed_pairwise : (keyed key refs).Pairwise fun a b => a.2 < b.2 := by
  rw [keyed_index key hlen, pairwise_map, pairwise_iff_getElem]
  intro i j hi hj hij
  simpa using hij

theorem listOf_keyed
    (k : U64) : picked refs k (sortKeyed (keyed key refs)) = refs.filter fun r => key r = k := by
  unfold picked
  rw [sortKeyed_filter (keyed_pairwise key hlen), keyed_index key hlen]
  have hzip : ∀ (rest before : List Reference), refs = before ++ rest →
      listOf refs (((rest.zipIdx before.length).map fun e => (key e.1, e.2)).filter
        fun e => e.1 = k) = rest.filter fun r => key r = k := by
    intro rest
    induction rest with
    | nil => exact fun before _ => rfl
    | cons r rest ih =>
      intro before hsplit
      have hget : refs[before.length]? = some r := by
        rw [hsplit]
        simp
      have hrest := ih (before ++ [r]) (by rw [hsplit, append_assoc, singleton_append])
      rw [length_append, length_singleton] at hrest
      rw [zipIdx_cons, map_cons]
      by_cases hk : key r = k
      · rw [filter_cons_of_pos (by simpa using hk), filter_cons_of_pos (by simpa using hk), ← hrest]
        simp [listOf, hget]
      · rw [filter_cons_of_neg (by simpa using hk), filter_cons_of_neg (by simpa using hk), ← hrest]
  exact hzip refs [] rfl

theorem within_keyed : Within refs 0 none (sortKeyed (keyed key refs)) := by
  refine ⟨(sortKeyed_pairwise (keyed_pairwise key hlen)).imp fun h => ?_,
    fun e _ => Nat.zero_le e.1.toNat, fun e _ b hb => (by cases hb), fun e he => ?_⟩
  · exact h.elim le_of_lt fun h => le_of_eq h.1
  · have hmem := (sortKeyed_perm _).mem_iff.mp he
    rw [keyed_index key hlen] at hmem
    obtain ⟨⟨r, i⟩, hr, rfl⟩ := mem_map.mp hmem
    exact (List.getElem?_eq_some_iff.mp (mem_zipIdx_iff_getElem?.mp hr)).1

end

theorem addGrouped_spec (h : Ranged 0 none parts)
    (key : Reference → U64) (hlen : refs.length ≤ 2 ^ 32) :
    Ranged 0 none (addGrouped parts refs key) ∧
      ∀ k, valuesAt k (entries (addGrouped parts refs key)) =
        valuesAt k (entries parts) ++ refs.filter fun r => key r = k := by
  unfold addGrouped
  by_cases hnone : refs = []
  · rw [if_pos hnone]
    exact ⟨h, fun k => by simp [hnone]⟩
  · rw [if_neg hnone]
    simp only
    obtain ⟨hshared, hmaps, horder⟩ := shared_slices h (within_keyed key hlen)
    have hshare : 0 < max (((entries parts).length + (sortKeyed (keyed key refs)).length) /
        partCount) minPart := lt_of_lt_of_le (by decide) (le_max_right _ minPart)
    generalize max (((entries parts).length + (sortKeyed (keyed key refs)).length) / partCount)
      minPart = share at hshare ⊢
    have hdone : ∀ given, Shared refs 0 none given →
        given.flatMap (fun p => p.1.2) = entries parts →
        given.flatMap Prod.snd = sortKeyed (keyed key refs) →
          Ranged 0 none (given.flatMap (partsAfter share refs)) ∧
            ∀ k, valuesAt k (entries (given.flatMap (partsAfter share refs))) =
              valuesAt k (entries parts) ++ refs.filter fun r => key r = k := by
      intro given hgiven hm ho
      obtain ⟨hranged, hvals⟩ := merged_spec share hgiven
      refine ⟨hranged, fun k => ?_⟩
      rw [hvals k, hm, ho, listOf_keyed key hlen k]
    split
    · obtain ⟨hshared', hmaps', horder'⟩ := shared_flatMap (cutPart_spec hshare) hshared
      exact hdone _ hshared' (hmaps'.trans hmaps) (horder'.trans horder)
    · exact hdone _ hshared hmaps horder

end ReferenceParts
