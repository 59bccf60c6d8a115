import Mathlib.Data.Char
import Reargo.OrderedMap
import Reargo.LoadedMemory
import Reargo.YaraNumbers

/-!
# Matching rules

A rule's strings are searched for in the memory blocks, the hits are kept by the name of the
string, and the condition is evaluated over the names.
-/
namespace YaraLite

open OrderedMap PcodeModel LoadedMemory
open List hiding lookup lookup_eq_none_iff

def toAsciiLowercase (b : UInt8) : UInt8 :=
  if byte 'A' ≤ b ∧ b ≤ byte 'Z' then b + 32 else b

def findText (haystack needle : List UInt8) (nocase : Bool) : List ℕ :=
  if needle = [] ∨ haystack.length < needle.length then []
  else
    let starts := List.range (haystack.length - needle.length + 1)
    if nocase then
      let lower := needle.map toAsciiLowercase
      starts.filter fun i => (((haystack.drop i).take needle.length).zip lower).all fun p =>
          toAsciiLowercase p.1 == p.2
    else starts.filter fun i => (haystack.drop i).take needle.length == needle

def findHex (haystack : List UInt8) (pat : List HexByte) : List ℕ :=
  if pat = [] ∨ haystack.length < pat.length then []
  else (List.range (haystack.length - pat.length + 1)).filter fun i =>
    pat.zipIdx.all fun p => (haystack[i + p.2]?).any p.1.matches

def NamedString.positions (s : NamedString) (data : List UInt8) : List ℕ :=
  match s.pattern with
  | .text needle => findText data needle s.nocase
  | .hex pat => findHex data pat

/-- Per-string matches: the addresses by the name of the string. -/
abbrev Hits := List (Text × List U64)

def searched (b : MemoryBlock) : Option (List UInt8) := b.data.map (List.map UInt8.ofBitVec)

def emptyHits (strings : List NamedString) : Hits :=
  strings.foldl (fun hits s => insertEntry s.name [] hits) []

def addresses (b : MemoryBlock) (data : List UInt8) (s : NamedString) : List U64 :=
  (s.positions data).map fun p => b.start + BitVec.ofNat 64 p

def pushHits (b : MemoryBlock) (data : List UInt8) (hits : Hits) (s : NamedString) : Hits :=
  match lookup s.name hits with
  | some slot => insertEntry s.name (slot ++ addresses b data s) hits
  | none => hits

def scanBlock (strings : List NamedString) (hits : Hits) (b : MemoryBlock) : Hits :=
  match searched b with
  | some data => strings.foldl (pushHits b data) hits
  | none => hits

def collectHits (blocks : List MemoryBlock) (strings : List NamedString) : Hits :=
  blocks.foldl (scanBlock strings) (emptyHits strings)

def evalOfThem (hits : Hits) (q : OfQuantifier) : Bool :=
  let total := hits.length
  let matched := (hits.filter fun e => !e.2.isEmpty).length
  match q with
  | .any => decide (0 < matched)
  | .all => decide (0 < total) && matched == total
  | .atLeast n => decide (n ≤ matched)

mutual

def eval (hits : Hits) : Expr → Bool
  | .literal b => b
  | .ref name => (lookup name hits).any fun v => !v.isEmpty
  | .not inner => !eval hits inner
  | .and parts => evalAll hits parts
  | .or parts => evalAny hits parts
  | .ofThem q => evalOfThem hits q

def evalAll (hits : Hits) : List Expr → Bool
  | [] => true
  | e :: es => eval hits e && evalAll hits es

def evalAny (hits : Hits) : List Expr → Bool
  | [] => false
  | e :: es => eval hits e || evalAny hits es

end

structure RuleMatch where
  rule : Text
  stringHits : Hits
  deriving DecidableEq, Repr

def matchRule (blocks : List MemoryBlock) (rule : Rule) : Option RuleMatch :=
  let hits := collectHits blocks rule.strings
  if eval hits rule.condition then some ⟨rule.name, hits⟩ else none

/-- One entry for each rule whose condition holds. -/
def scan (blocks : List MemoryBlock) (rules : List Rule) : List RuleMatch :=
  rules.filterMap (matchRule blocks)

def NamedString.tests (s : NamedString) : List (UInt8 → Bool) :=
  match s.pattern with
  | .text needle =>
    needle.map fun a b => if s.nocase then toAsciiLowercase a == toAsciiLowercase b else a == b
  | .hex pat => pat.map HexByte.matches

/-- The data from a position on passes the tests: an empty pattern has no occurrence. -/
def OccursAt (s : NamedString) (data : List UInt8) (p : ℕ) : Prop :=
  s.tests ≠ [] ∧
    List.Forall₂ (fun test b => test b = true) s.tests ((data.drop p).take s.tests.length)

def Occurs (blocks : List MemoryBlock) (s : NamedString) : Prop :=
  ∃ b ∈ blocks, ∃ data ∈ searched b, ∃ p, OccursAt s data p

section Search

variable {s : NamedString} {data : List UInt8} {p : ℕ}

theorem positions_nodup (s : NamedString) (data : List UInt8) : (s.positions data).Nodup := by
  have hstarts (n : ℕ) (q : ℕ → Bool) : ((range n).filter q).Nodup :=
    nodup_range.filter q
  obtain ⟨name, pattern, nocase⟩ := s
  cases pattern with
  | text needle =>
    simp only [NamedString.positions, findText]
    split_ifs
    · exact nodup_nil
    · exact hstarts _ _
    · exact hstarts _ _
  | hex pat =>
    simp only [NamedString.positions, findHex]
    split_ifs
    · exact nodup_nil
    · exact hstarts _ _

theorem occursAt_start (h : OccursAt s data p) :
    ¬ data.length < s.tests.length ∧ p < data.length - s.tests.length + 1 := by
  have hlength := h.2.length_eq
  have hpos : 0 < s.tests.length := length_pos_iff.mpr h.1
  simp only [length_take, length_drop] at hlength
  omega

theorem mem_starts {n : ℕ} {empty : Prop} [Decidable empty] {test : ℕ → Bool}
    (hn : s.tests.length = n) (hempty : empty ↔ s.tests = [])
    (htest : p + n ≤ data.length → (test p = true ↔
      List.Forall₂ (fun test b => test b = true) s.tests ((data.drop p).take n))) :
    p ∈ (if empty ∨ data.length < n then []
      else (List.range (data.length - n + 1)).filter test) ↔ OccursAt s data p := by
  subst hn
  split_ifs with hshort
  · refine iff_of_false (by simp) fun h => ?_
    rcases hshort with hnil | hshort
    · exact h.1 (hempty.mp hnil)
    · exact (occursAt_start h).1 hshort
  · rw [not_or] at hshort
    rw [mem_filter, mem_range]
    constructor
    · rintro ⟨hp, hpass⟩
      exact ⟨fun hnil => hshort.1 (hempty.mpr hnil), (htest (by omega)).mp hpass⟩
    · intro h
      obtain ⟨-, hp⟩ := occursAt_start h
      exact ⟨hp, (htest (by omega)).mpr h.2⟩

theorem window_length {n : ℕ} (hend : p + n ≤ data.length) : ((data.drop p).take n).length = n := by
  simp only [length_take, length_drop]
  omega

theorem positions_nocase {name : Text} {needle : List UInt8} :
    p ∈ findText data needle true ↔ OccursAt ⟨name, .text needle, true⟩ data p := by
  simp only [findText, if_true]
  refine mem_starts (length_map _) map_eq_nil_iff.symm fun hend => ?_
  simp only [NamedString.tests, if_true, forall₂_map_left_iff]
  rw [forall₂_iff_zip, all_eq_true]
  have hlength := window_length hend
  generalize (data.drop p).take needle.length = window at hlength ⊢
  rw [zip_map_right]
  constructor
  · intro h
    refine ⟨hlength.symm, fun {a b} hab => ?_⟩
    have hba : (b, a) ∈ window.zip needle := by
      rw [← zip_swap]
      exact mem_map.mpr ⟨(a, b), hab, rfl⟩
    have := h _ (mem_map.mpr ⟨(b, a), hba, rfl⟩)
    simp only [Prod.map, id, beq_iff_eq] at this ⊢
    exact this.symm
  · rintro ⟨-, h⟩ q hq
    obtain ⟨⟨b, a⟩, hba, rfl⟩ := mem_map.mp hq
    have hab : (a, b) ∈ needle.zip window := by
      rw [← zip_swap]
      exact mem_map.mpr ⟨(b, a), hba, rfl⟩
    have := h hab
    simp only [Prod.map, id, beq_iff_eq] at this ⊢
    exact this.symm

theorem positions_case {name : Text} {needle : List UInt8} :
    p ∈ findText data needle false ↔ OccursAt ⟨name, .text needle, false⟩ data p := by
  simp only [findText, Bool.false_eq_true, if_false]
  refine mem_starts (length_map _) map_eq_nil_iff.symm fun _ => ?_
  simp only [NamedString.tests, Bool.false_eq_true, if_false, forall₂_map_left_iff, beq_iff_eq]
  rw [forall₂_eq_eq_eq]
  exact eq_comm

theorem positions_hex {name : Text} {pat : List HexByte} {nocase : Bool} :
    p ∈ findHex data pat ↔ OccursAt ⟨name, .hex pat, nocase⟩ data p := by
  refine mem_starts (length_map _) map_eq_nil_iff.symm fun hend => ?_
  simp only [NamedString.tests, forall₂_map_left_iff]
  rw [forall₂_iff_get, all_eq_true]
  have hlength := window_length hend
  constructor
  · intro h
    refine ⟨hlength.symm, fun i hi hw => ?_⟩
    have hpass := h (pat.get ⟨i, hi⟩, i) (by
      rw [mem_zipIdx_iff_getElem?]
      simp)
    have hd : p + i < data.length := by omega
    simpa [getElem?_eq_getElem hd] using hpass
  · rintro ⟨-, h⟩ ⟨byte, i⟩ hmem
    rw [mem_zipIdx_iff_getElem?] at hmem
    obtain ⟨hi, hbyte⟩ := List.getElem?_eq_some_iff.mp hmem
    have hd : p + i < data.length := by omega
    have hpass := h i hi (by omega)
    simp only [get_eq_getElem, getElem_take, getElem_drop, hbyte] at hpass
    simpa [List.getElem?_eq_getElem hd] using hpass

theorem mem_positions : p ∈ s.positions data ↔ OccursAt s data p := by
  obtain ⟨name, pattern, nocase⟩ := s
  cases pattern with
  | text needle =>
    cases nocase with
    | false => exact positions_case
    | true => exact positions_nocase
  | hex pat => exact positions_hex

instance : Decidable (OccursAt s data p) := decidable_of_iff _ mem_positions

theorem positions_perm (s : NamedString) (data : List UInt8) :
    (s.positions data).Perm ((List.range data.length).filter fun p => OccursAt s data p) := by
  refine (perm_ext_iff_of_nodup (positions_nodup s data)
    (nodup_range.filter _)).mpr fun p => ?_
  rw [mem_positions, mem_filter, mem_range, decide_eq_true_iff]
  refine ⟨fun h => ⟨?_, h⟩, fun h => h.2⟩
  have hpos : 0 < s.tests.length := length_pos_iff.mpr h.1
  obtain ⟨hlong, hp⟩ := occursAt_start h
  omega

end Search

section Hits

variable {blocks : List MemoryBlock} {strings : List NamedString} {hits : Hits} {name : Text}

theorem sorted_foldl {β : Type*} {step : Hits → β → Hits}
    (hstep : ∀ hits b, (hits.map Prod.fst).Pairwise (· < ·) →
      ((step hits b).map Prod.fst).Pairwise (· < ·)) {l : List β}
    (h : (hits.map Prod.fst).Pairwise (· < ·)) :
    ((l.foldl step hits).map Prod.fst).Pairwise (· < ·) := by
  induction l generalizing hits with
  | nil => exact h
  | cons b l ih => exact ih (hstep hits b h)

theorem pushHits_sorted (b : MemoryBlock) (data : List UInt8) (s : NamedString)
    (h : (hits.map Prod.fst).Pairwise (· < ·)) :
    ((pushHits b data hits s).map Prod.fst).Pairwise (· < ·) := by
  rw [pushHits]
  split
  · exact insertEntry_sorted h
  · exact h

theorem collectHits_sorted (blocks : List MemoryBlock) (strings : List NamedString) :
    ((collectHits blocks strings).map Prod.fst).Pairwise (· < ·) := by
  refine sorted_foldl (fun hits b h => ?_)
    (sorted_foldl (fun hits s h => insertEntry_sorted h) List.Pairwise.nil)
  rw [scanBlock]
  split
  · exact sorted_foldl (fun hits s h => pushHits_sorted b _ s h) h
  · exact h

theorem lookup_emptyHits (strings : List NamedString) (name : Text) :
    lookup name (emptyHits strings) =
      if name ∈ strings.map NamedString.name then some [] else none := by
  have hfold (hits : Hits) : lookup name
      (strings.foldl (fun hits s => insertEntry s.name [] hits) hits) =
      if name ∈ strings.map NamedString.name then some [] else lookup name hits := by
    induction strings generalizing hits with
    | nil => simp
    | cons s ss ih =>
      rw [foldl_cons, ih, lookup_insertEntry]
      by_cases hname : name = s.name <;> simp [hname]
  exact hfold []

def foundIn (strings : List NamedString) (name : Text) (b : MemoryBlock) : List U64 :=
  match searched b with
  | some data => (strings.filter fun s => s.name = name).flatMap (addresses b data)
  | none => []

theorem lookup_pushHits (b : MemoryBlock) (data : List UInt8) (s : NamedString) :
    lookup name (pushHits b data hits s) =
      (lookup name hits).map (· ++ if s.name = name then addresses b data s else []) := by
  rw [pushHits]
  by_cases hname : s.name = name
  · subst hname
    cases hslot : lookup s.name hits with
    | some slot => simp [lookup_insertEntry]
    | none => simp [hslot]
  · have hsame : (lookup name hits).map (· ++ if s.name = name then addresses b data s else []) =
        lookup name hits := by
      cases lookup name hits <;> simp [hname]
    rw [hsame]
    split
    · rw [lookup_insertEntry, if_neg (Ne.symm hname)]
    · rfl

theorem lookup_scanBlock (b : MemoryBlock) : lookup name (scanBlock strings hits b) =
      (lookup name hits).map (· ++ foundIn strings name b) := by
  rw [scanBlock, foundIn]
  split
  · next data _ =>
    induction strings generalizing hits with
    | nil => cases hslot : lookup name hits <;> simp [hslot]
    | cons s ss ih =>
      rw [foldl_cons, ih, lookup_pushHits]
      by_cases hname : s.name = name
      · cases lookup name hits <;> simp [hname]
      · cases lookup name hits <;> simp [hname]
  · cases lookup name hits <;> simp

theorem lookup_collectHits (blocks : List MemoryBlock) (strings : List NamedString)
    (name : Text) : lookup name (collectHits blocks strings) =
      if name ∈ strings.map NamedString.name then some (blocks.flatMap (foundIn strings name))
      else none := by
  have hfold (hits : Hits) : lookup name (blocks.foldl (scanBlock strings) hits) =
      (lookup name hits).map (· ++ blocks.flatMap (foundIn strings name)) := by
    induction blocks generalizing hits with
    | nil => cases hslot : lookup name hits <;> simp [hslot]
    | cons b bs ih =>
      rw [foldl_cons, ih, lookup_scanBlock]
      cases lookup name hits <;> simp
  rw [collectHits, hfold, lookup_emptyHits]
  split <;> simp

theorem occurs_iff {s : NamedString} :
    Occurs blocks s ↔ ∃ b ∈ blocks, ∃ data ∈ searched b, s.positions data ≠ [] := by
  simp only [Occurs, ← mem_positions, ne_eq, eq_nil_iff_forall_not_mem, not_forall, not_not]

instance {s : NamedString} : Decidable (Occurs blocks s) :=
  decidable_of_iff (∃ b ∈ blocks, (searched b).any fun data => !(s.positions data).isEmpty) (by
    simp [occurs_iff, Option.any_eq_true])

theorem flatMap_ne_nil_iff {α β : Type*} {l : List α} {f : α → List β} :
    l.flatMap f ≠ [] ↔ ∃ a ∈ l, f a ≠ [] := by
  rw [ne_eq, flatMap_eq_nil_iff]
  simp only [not_forall, exists_prop, ne_eq]

theorem foundIn_ne_nil_iff {b : MemoryBlock} : foundIn strings name b ≠ [] ↔
      ∃ s ∈ strings, s.name = name ∧ ∃ data ∈ searched b, s.positions data ≠ [] := by
  rw [foundIn]
  cases hdata : searched b with
  | none => simp
  | some data => simp [addresses]

theorem found_ne_nil_iff : blocks.flatMap (foundIn strings name) ≠ [] ↔
      ∃ s ∈ strings, s.name = name ∧ Occurs blocks s := by
  simp only [flatMap_ne_nil_iff, foundIn_ne_nil_iff, occurs_iff]
  constructor
  · rintro ⟨b, hb, s, hs, hname, hdata⟩
    exact ⟨s, hs, hname, b, hb, hdata⟩
  · rintro ⟨s, hs, hname, b, hb, hdata⟩
    exact ⟨b, hb, s, hs, hname, hdata⟩

end Hits

def Referenced (blocks : List MemoryBlock) (strings : List NamedString) (name : Text) : Prop :=
  ∃ s ∈ strings, s.name = name ∧ Occurs blocks s

def occurring (blocks : List MemoryBlock) (strings : List NamedString) : List NamedString :=
  strings.filter fun s => Occurs blocks s

def Quantified (blocks : List MemoryBlock) (strings : List NamedString) : OfQuantifier → Prop
  | .any => ∃ s ∈ strings, Occurs blocks s
  | .all => strings ≠ [] ∧ ∀ s ∈ strings, Occurs blocks s
  | .atLeast n => n ≤ (occurring blocks strings).length

mutual

/-- The truth of a condition under a reading of its references and quantifiers. -/
def Holds (R : Text → Prop) (Q : OfQuantifier → Prop) : Expr → Prop
  | .literal b => b = true
  | .ref name => R name
  | .not inner => ¬ Holds R Q inner
  | .and parts => HoldsAll R Q parts
  | .or parts => HoldsAny R Q parts
  | .ofThem q => Q q

def HoldsAll (R : Text → Prop) (Q : OfQuantifier → Prop) : List Expr → Prop
  | [] => True
  | e :: es => Holds R Q e ∧ HoldsAll R Q es

def HoldsAny (R : Text → Prop) (Q : OfQuantifier → Prop) : List Expr → Prop
  | [] => False
  | e :: es => Holds R Q e ∨ HoldsAny R Q es

end

def Met (blocks : List MemoryBlock) (r : Rule) : Prop :=
  Holds (Referenced blocks r.strings) (Quantified blocks r.strings) r.condition

def occurrences (blocks : List MemoryBlock) (strings : List NamedString) (name : Text)
    (a : U64) : ℕ :=
  (blocks.map fun b => match searched b with
    | some data => ((strings.filter fun s => s.name = name).map fun s =>
        (List.range data.length).countP fun p =>
          OccursAt s data p ∧ b.start + BitVec.ofNat 64 p = a).sum
    | none => 0).sum

def Complete (blocks : List MemoryBlock) (strings : List NamedString) (hits : Hits) : Prop :=
  ∀ name, if name ∈ strings.map NamedString.name
    then ∃ l, lookup name hits = some l ∧ ∀ a, l.count a = occurrences blocks strings name a
    else lookup name hits = none

structure Decides (blocks : List MemoryBlock) (r : Rule) (reported : Option RuleMatch) : Prop where
  met : reported.isSome ↔ Met blocks r
  complete : ∀ m ∈ reported, m.rule = r.name ∧ Complete blocks r.strings m.stringHits

def occurringNames (blocks : List MemoryBlock) (strings : List NamedString) : List Text :=
  ((occurring blocks strings).map NamedString.name).dedup

/-- The quantifiers for which counting names, or storing the number, makes a difference:
an absent string shares its name with one that occurs, several strings of one name occur, or
the number written does not fit. -/
def Miscounted (blocks : List MemoryBlock) (strings : List NamedString) : OfQuantifier → Prop
  | .any => False
  | .all => (∀ s ∈ strings, Referenced blocks strings s.name) ∧ ∃ s ∈ strings, ¬ Occurs blocks s
  | .atLeast n =>
    if n < 2 ^ 64 then (occurringNames blocks strings).length < n ∧
      n ≤ (occurring blocks strings).length
    else (occurring blocks strings).length < n

/-- The condition hinges on its miscounted quantifiers: negating them changes its truth. -/
def Hinges (blocks : List MemoryBlock) (r : Rule) : Prop :=
  ¬ (Met blocks r ↔ Holds (Referenced blocks r.strings)
    (fun q => Quantified blocks r.strings q ↔ ¬ Miscounted blocks r.strings q) r.condition)

section Scan

variable {blocks : List MemoryBlock} {strings : List NamedString} {name : Text} {g : ℕ → ℕ}

theorem count_addresses (b : MemoryBlock) (data : List UInt8) (s : NamedString) (a : U64) :
    (addresses b data s).count a = (List.range data.length).countP fun p =>
      OccursAt s data p ∧ b.start + BitVec.ofNat 64 p = a := by
  rw [addresses, count_eq_countP, countP_map,
    (positions_perm s data).countP_eq, countP_filter]
  refine countP_congr fun p _ => ?_
  simp [and_comm]

theorem collectHits_complete (blocks : List MemoryBlock) (strings : List NamedString) :
    Complete blocks strings (collectHits blocks strings) := by
  intro name
  have hlookup := lookup_collectHits blocks strings name
  split
  · next hdeclared =>
    rw [if_pos hdeclared] at hlookup
    refine ⟨_, hlookup, fun a => ?_⟩
    rw [count_flatMap, occurrences]
    congr 1
    refine map_congr_left fun b _ => ?_
    simp only [Function.comp, foundIn]
    cases searched b with
    | none => rfl
    | some data =>
      rw [count_flatMap]
      congr 1
      exact map_congr_left fun s _ => count_addresses b data s a
  · next hdeclared => rwa [if_neg hdeclared] at hlookup

theorem hits_keys_nodup : ((collectHits blocks strings).map Prod.fst).Nodup :=
  (collectHits_sorted blocks strings).imp fun h => ne_of_lt h

theorem hits_any_iff : (lookup name (collectHits blocks strings)).any (fun v => !v.isEmpty) = true ↔
      Referenced blocks strings name := by
  rw [Referenced, ← found_ne_nil_iff, lookup_collectHits]
  split
  · simp
  · next hdeclared =>
    refine iff_of_false (by simp) fun hfound => hdeclared ?_
    obtain ⟨s, hs, hname, -⟩ := found_ne_nil_iff.mp hfound
    exact mem_map.mpr ⟨s, hs, hname⟩

theorem total_eq :
    (collectHits blocks strings).length = (strings.map NamedString.name).dedup.length := by
  rw [← length_map (f := Prod.fst)]
  refine List.Perm.length_eq ?_
  refine (perm_ext_iff_of_nodup hits_keys_nodup (nodup_dedup _)).mpr fun name => ?_
  have hlookup := lookup_collectHits blocks strings name
  rw [mem_dedup, ← not_iff_not, ← lookup_eq_none_iff, hlookup]
  split <;> simp_all

theorem mem_occurring {s : NamedString} :
    s ∈ occurring blocks strings ↔ s ∈ strings ∧ Occurs blocks s := by
  simp [occurring]

theorem matched_eq : ((collectHits blocks strings).filter fun e => !e.2.isEmpty).length =
      (occurringNames blocks strings).length := by
  rw [← length_map (f := Prod.fst), occurringNames]
  refine List.Perm.length_eq ?_
  have hnodup : (((collectHits blocks strings).filter fun e => !e.2.isEmpty).map Prod.fst).Nodup :=
    hits_keys_nodup.sublist (filter_sublist.map Prod.fst)
  refine (perm_ext_iff_of_nodup hnodup (nodup_dedup _)).mpr fun name => ?_
  have hlisted : name ∈ ((collectHits blocks strings).filter fun e => !e.2.isEmpty).map Prod.fst ↔
      (lookup name (collectHits blocks strings)).any (fun v => !v.isEmpty) = true := by
    simp only [mem_map, mem_filter, Prod.exists, exists_and_right, exists_eq_right,
      Option.any_eq_true, ← lookup_eq_some_iff hits_keys_nodup]
  rw [hlisted, hits_any_iff, mem_dedup, Referenced, mem_map]
  simp only [mem_occurring, and_assoc, and_comm (a := Occurs _ _)]

theorem occurringNames_pos :
    0 < (occurringNames blocks strings).length ↔ ∃ s ∈ strings, Occurs blocks s := by
  rw [occurringNames, length_pos_iff_exists_mem]
  simp only [mem_dedup, mem_map, mem_occurring]
  constructor
  · rintro ⟨name, s, hs, -⟩
    exact ⟨s, hs⟩
  · rintro ⟨s, hs⟩
    exact ⟨s.name, s, hs, rfl⟩

theorem occurringNames_le :
    (occurringNames blocks strings).length ≤ (occurring blocks strings).length := by
  simpa [occurringNames] using
    (dedup_sublist ((occurring blocks strings).map NamedString.name)).length_le

theorem occurringNames_all :
    (occurringNames blocks strings).length = (strings.map NamedString.name).dedup.length ↔
      ∀ s ∈ strings, Referenced blocks strings s.name := by
  have hsub : occurringNames blocks strings ⊆ (strings.map NamedString.name).dedup := by
    intro name hname
    simp only [occurringNames, mem_dedup, mem_map, mem_occurring] at hname ⊢
    obtain ⟨s, hs, heq⟩ := hname
    exact ⟨s, hs.1, heq⟩
  have hsubperm := (nodup_dedup _).subperm hsub
  constructor
  · intro hlen s hs
    have hperm := hsubperm.perm_of_length_le hlen.ge
    have hmem : s.name ∈ occurringNames blocks strings :=
      hperm.mem_iff.mpr (mem_dedup.mpr (mem_map.mpr ⟨s, hs, rfl⟩))
    simp only [occurringNames, mem_dedup, mem_map, mem_occurring] at hmem
    obtain ⟨t, ht, hname⟩ := hmem
    exact ⟨t, ht.1, hname, ht.2⟩
  · intro hall
    refine le_antisymm hsubperm.length_le ?_
    refine ((nodup_dedup _).subperm fun name hname => ?_).length_le
    simp only [occurringNames, mem_dedup, mem_map, mem_occurring] at hname ⊢
    obtain ⟨s, hs, rfl⟩ := hname
    obtain ⟨t, ht, hname, hocc⟩ := hall s hs
    exact ⟨t, ⟨ht, hocc⟩, hname⟩

theorem evalOfThem_iff (q : OfQuantifier) :
    evalOfThem (collectHits blocks strings) (q.store fitOrZero) = true ↔
      (Quantified blocks strings q ↔ ¬ Miscounted blocks strings q) := by
  cases q with
  | any =>
    simp only [OfQuantifier.store, evalOfThem, matched_eq, decide_eq_true_eq, occurringNames_pos,
      Quantified, Miscounted, not_false_iff, iff_true]
  | all =>
    have hpos : 0 < (strings.map NamedString.name).dedup.length ↔ strings ≠ [] := by
      rw [length_pos_iff, ne_eq, dedup_eq_nil, map_eq_nil_iff]
    simp only [OfQuantifier.store, evalOfThem, matched_eq, total_eq, Bool.and_eq_true,
      decide_eq_true_eq, beq_iff_eq, occurringNames_all, hpos, Quantified, Miscounted]
    have hself : (∀ s ∈ strings, Occurs blocks s) →
        ∀ s ∈ strings, Referenced blocks strings s.name :=
      fun h s hs => ⟨s, hs, rfl, h s hs⟩
    have hne : (∃ s ∈ strings, ¬ Occurs blocks s) → strings ≠ [] := by
      rintro ⟨s, hs, -⟩ rfl
      simp at hs
    have hnot : (∃ s ∈ strings, ¬ Occurs blocks s) ↔ ¬ ∀ s ∈ strings, Occurs blocks s := by
      push Not
      rfl
    rw [hnot] at hne ⊢
    generalize (∀ s ∈ strings, Occurs blocks s) = occurs at hself hne ⊢
    generalize (∀ s ∈ strings, Referenced blocks strings s.name) = referenced at hself ⊢
    tauto
  | atLeast n =>
    have hle := @occurringNames_le blocks strings
    simp only [OfQuantifier.store, evalOfThem, matched_eq, decide_eq_true_eq, Quantified,
      Miscounted, fitOrZero]
    split_ifs <;> omega

section Conditions

variable {R R' : Text → Prop} {Q Q' : OfQuantifier → Prop} {hits : Hits}

mutual

theorem holds_congr (hR : ∀ name, R name ↔ R' name) (hQ : ∀ q, Q q ↔ Q' (q.store g)) :
    ∀ e : Expr, Holds R Q e ↔ Holds R' Q' (e.store g)
  | .literal _ => .rfl
  | .ref name => hR name
  | .not inner => not_congr (holds_congr hR hQ inner)
  | .and parts => holdsAll_congr hR hQ parts
  | .or parts => holdsAny_congr hR hQ parts
  | .ofThem q => hQ q

theorem holdsAll_congr (hR : ∀ name, R name ↔ R' name) (hQ : ∀ q, Q q ↔ Q' (q.store g)) :
    ∀ es : List Expr, HoldsAll R Q es ↔ HoldsAll R' Q' (storeParts g es)
  | [] => .rfl
  | e :: es => and_congr (holds_congr hR hQ e) (holdsAll_congr hR hQ es)

theorem holdsAny_congr (hR : ∀ name, R name ↔ R' name) (hQ : ∀ q, Q q ↔ Q' (q.store g)) :
    ∀ es : List Expr, HoldsAny R Q es ↔ HoldsAny R' Q' (storeParts g es)
  | [] => .rfl
  | e :: es => or_congr (holds_congr hR hQ e) (holdsAny_congr hR hQ es)

end

mutual

theorem eval_holds : ∀ e : Expr, eval hits e = true ↔
    Holds (fun name => (lookup name hits).any (fun v => !v.isEmpty) = true)
      (fun q => evalOfThem hits q = true) e
  | .literal _ => .rfl
  | .ref _ => .rfl
  | .not inner => by
    rw [eval, Holds, ← eval_holds inner]
    simp
  | .and parts => evalAll_holds parts
  | .or parts => evalAny_holds parts
  | .ofThem _ => .rfl

theorem evalAll_holds : ∀ es : List Expr, evalAll hits es = true ↔
    HoldsAll (fun name => (lookup name hits).any (fun v => !v.isEmpty) = true)
      (fun q => evalOfThem hits q = true) es
  | [] => by simp [evalAll, HoldsAll]
  | e :: es => by rw [evalAll, HoldsAll, Bool.and_eq_true, eval_holds e, evalAll_holds es]

theorem evalAny_holds : ∀ es : List Expr, evalAny hits es = true ↔
    HoldsAny (fun name => (lookup name hits).any (fun v => !v.isEmpty) = true)
      (fun q => evalOfThem hits q = true) es
  | [] => by simp [evalAny, HoldsAny]
  | e :: es => by rw [evalAny, HoldsAny, Bool.or_eq_true, eval_holds e, evalAny_holds es]

end

end Conditions

theorem eval_collectHits (r : Rule) :
    eval (collectHits blocks r.strings) (r.condition.store fitOrZero) = true ↔
      Holds (Referenced blocks r.strings)
        (fun q => Quantified blocks r.strings q ↔ ¬ Miscounted blocks r.strings q) r.condition := by
  rw [eval_holds]
  exact (holds_congr (fun _ => hits_any_iff.symm) (fun q => (evalOfThem_iff q).symm) _).symm

theorem decides_iff (blocks : List MemoryBlock) (r : Rule) :
    Decides blocks r (matchRule blocks (r.store fitOrZero)) ↔ ¬ Hinges blocks r := by
  have hmatch : matchRule blocks (r.store fitOrZero) =
      if eval (collectHits blocks r.strings) (r.condition.store fitOrZero) = true
        then some ⟨r.name, collectHits blocks r.strings⟩ else none := rfl
  have hreported : (matchRule blocks (r.store fitOrZero)).isSome = true ↔
      Holds (Referenced blocks r.strings)
        (fun q => Quantified blocks r.strings q ↔ ¬ Miscounted blocks r.strings q)
        r.condition := by
    rw [← eval_collectHits, hmatch]
    split_ifs with heval <;> simp [heval]
  have hcomplete : ∀ m ∈ matchRule blocks (r.store fitOrZero),
      m.rule = r.name ∧ Complete blocks r.strings m.stringHits := by
    intro m hm
    rw [hmatch] at hm
    split_ifs at hm
    · obtain rfl := Option.some.inj hm
      exact ⟨rfl, collectHits_complete blocks r.strings⟩
    · cases hm
  rw [Hinges, not_not]
  constructor
  · intro h
    exact h.met.symm.trans hreported
  · intro h
    exact ⟨hreported.trans h.symm, hcomplete⟩

/-- Every rule the parser accepts is decided by the scan exactly when its condition, as it is
written, does not hinge on a miscounted quantifier. -/
theorem scan_decides_iff {src : List UInt8} {rules : List Rule} (h : parseRules src = .ok rules)
    (blocks : List MemoryBlock) :
    ∃ written, parseStored id src = .ok written ∧ rules = written.map (Rule.store fitOrZero) ∧
      scan blocks rules = written.filterMap (fun r => matchRule blocks (r.store fitOrZero)) ∧
      ∀ r ∈ written,
        Decides blocks r (matchRule blocks (r.store fitOrZero)) ↔ ¬ Hinges blocks r := by
  obtain ⟨written, hwritten, hrules⟩ := written_of_parsed h
  refine ⟨written, hwritten, hrules, ?_, fun r _ => decides_iff blocks r⟩
  rw [hrules, scan, filterMap_map]
  rfl

/-- Two rules, one with two anonymous strings of which one occurs, one that asks for more
strings than any number the lexer keeps. -/
def anonymousSource : List UInt8 :=
  "rule r \x7b strings: $ = \"ab\" $ = \"cd\" condition: all of them \x7d
   rule s \x7b strings: $a = \"ab\" condition: 18446744073709551616 of them \x7d".toList.map byte

def anonymousTokens (n : ℕ) : List Token :=
  [.ident "rule".toList, .ident "r".toList, .lbrace, .ident "strings".toList, .colon,
    .stringRef [], .eq, .quotedString "ab".toList, .stringRef [], .eq,
    .quotedString "cd".toList, .ident "condition".toList, .colon, .ident "all".toList,
    .ident "of".toList, .ident "them".toList, .rbrace,
    .ident "rule".toList, .ident "s".toList, .lbrace, .ident "strings".toList, .colon,
    .stringRef "a".toList, .eq, .quotedString "ab".toList, .ident "condition".toList, .colon,
    .number n, .ident "of".toList, .ident "them".toList, .rbrace]

def anonymousRules (n : ℕ) : List Rule :=
  [⟨"r".toList, [⟨[], .text [97, 98], false⟩, ⟨[], .text [99, 100], false⟩], .ofThem .all⟩,
    ⟨"s".toList, [⟨"a".toList, .text [97, 98], false⟩], .ofThem (.atLeast n)⟩]

def anonymousBlocks : List MemoryBlock := [⟨0x1000, 4, 0, some [120, 97, 98, 97]⟩]

theorem anonymousSource_parsed : parseRules anonymousSource = .ok (anonymousRules 0) := by
  have hlex : tokenise fitOrZero [] anonymousSource = .ok (anonymousTokens 0) := by decide +kernel
  simp only [parseRules, parseStored, hlex]
  rfl

theorem anonymousSource_written :
    parseStored id anonymousSource = .ok (anonymousRules (2 ^ 64)) := by
  have hlex : tokenise id [] anonymousSource = .ok (anonymousTokens (2 ^ 64)) := by
    decide +kernel
  simp only [parseStored, hlex]
  rfl

theorem anonymousRules_unmet : ∀ r ∈ anonymousRules (2 ^ 64),
    (matchRule anonymousBlocks (r.store fitOrZero)).isSome ∧ ¬ Met anonymousBlocks r := by
  simp only [anonymousRules, mem_cons, not_mem_nil, or_false, forall_eq_or_imp, forall_eq]
  refine ⟨⟨by decide +kernel, ?_⟩, by decide +kernel, ?_⟩
  · rintro ⟨-, hall⟩
    revert hall
    decide +kernel
  · change ¬ 2 ^ 64 ≤ _
    decide +kernel

theorem scan_decides_anonymous : scan anonymousBlocks (anonymousRules 0) =
      (anonymousRules (2 ^ 64)).filterMap
        (fun r => matchRule anonymousBlocks (r.store fitOrZero)) ∧
    ∀ r ∈ anonymousRules (2 ^ 64), Hinges anonymousBlocks r ∧
      ¬ Decides anonymousBlocks r (matchRule anonymousBlocks (r.store fitOrZero)) := by
  obtain ⟨written, hwritten, -, hscan, hdecides⟩ :=
    scan_decides_iff anonymousSource_parsed anonymousBlocks
  obtain rfl := Except.ok.inj (anonymousSource_written.symm.trans hwritten)
  refine ⟨hscan, fun r hr => ?_⟩
  obtain ⟨reported, unmet⟩ := anonymousRules_unmet r hr
  have hnot : ¬ Decides anonymousBlocks r (matchRule anonymousBlocks (r.store fitOrZero)) :=
    fun h => unmet (h.met.mp reported)
  exact ⟨by_contra fun h => hnot ((hdecides r hr).mpr h), hnot⟩

/-- Both rules are reported: one of the strings of the first is absent, and the second has
nowhere near as many strings as it asks for. -/
theorem anonymous_reported : parseRules anonymousSource = .ok (anonymousRules 0) ∧
      parseStored id anonymousSource = .ok (anonymousRules (2 ^ 64)) ∧
      ∀ r ∈ anonymousRules (2 ^ 64),
        (matchRule anonymousBlocks (r.store fitOrZero)).isSome ∧ ¬ Met anonymousBlocks r :=
  ⟨anonymousSource_parsed, anonymousSource_written, anonymousRules_unmet⟩

end Scan

end YaraLite
