import Reargo.PackedCache

/-!
# The packed maps read back

Each reader reads what its writer wrote and no less, so that a chunk decodes to the entries it
was made of and to nothing when it is cut short, lengthened or read with another count.
-/
namespace PackedRoundTrip

open PcodeModel InstructionModel ReferenceParts ByteReaders Varints PackedCache List Option

section Parts

theorem reads_ofOption {α : Type} {o : Option α} {a : α} (h : o = some a) :
    Reads (ofOption o : Reader Byte α) [] a := by
  rw [h]
  exact reads_pure a

theorem reads_bytes {b : List Byte} (h : b.length < 2 ^ 63) : Reads readBytes (writeBytes b) b := by
  apply (reads_varint _).bind
  have hlen : (BitVec.ofNat 64 b.length).toNat = b.length := by
    simp only [BitVec.toNat_ofNat]
    omega
  exact hlen.symm ▸ reads_items b

theorem extensible_bytes : Extensible readBytes :=
  extensible_varint.bind fun _ => extensible_items _

theorem fromUtf8_utf8 (s : String) : fromUtf8 (utf8 s) = some s := by
  have hbytes : ((utf8 s).map UInt8.ofBitVec).toArray = s.toUTF8.data := by
    simp [utf8, Function.comp_def]
  simp only [fromUtf8, hbytes, String.toUTF8_eq_toByteArray, String.fromUTF8?,
    dif_pos s.isValidUTF8]
  rfl

theorem reads_string {s : String} (h : (utf8 s).length < 2 ^ 63) :
    Reads readString (writeBytes (utf8 s)) s :=
  (reads_bytes h).map (reads_ofOption (fromUtf8_utf8 s))

theorem extensible_string : Extensible readString :=
  extensible_bytes.bind fun _ => extensible_ofOption _

theorem reads_branch (address : U64) (t : Option U64) :
    Reads (readBranch address) (writeBranch address t) t := by
  cases t with
  | none => exact (reads_item 0).bind (reads_pure none)
  | some t => exact (reads_item 1).bind ((reads_delta t address).map (reads_pure _))

theorem extensible_branch (address : U64) : Extensible (readBranch address) := by
  apply extensible_item.bind
  intro flag
  apply (extensible_pure none).ite
  apply Extensible.ite _ extensible_failure
  exact (extensible_delta address).bind fun _ => extensible_pure _

theorem reads_text {t : Option (String × String)}
    (h : ∀ m o, t = some (m, o) → (utf8 m).length < 2 ^ 63 ∧ (utf8 o).length < 2 ^ 63) :
    Reads readText (writeText t) t := by
  cases t with
  | none => exact (reads_item 0).bind (reads_pure none)
  | some t =>
    obtain ⟨m, o⟩ := t
    obtain ⟨hm, ho⟩ := h m o rfl
    apply (reads_item 1).bind
    apply (reads_string hm).bind
    exact (reads_string ho).map (reads_pure _)

theorem extensible_text : Extensible readText := by
  apply extensible_item.bind
  intro flag
  apply (extensible_pure none).ite
  apply Extensible.ite _ extensible_failure
  apply extensible_string.bind
  intro m
  exact extensible_string.bind fun _ => extensible_pure _

theorem extensible_count (minSize : ℕ) : Extensible (readCount minSize) := by
  apply extensible_varint.bind
  intro n bs a rest ext h
  simp only [StateT.run_bind, StateT.run_get, Option.pure_def, bind_eq_bind, bind_some] at h ⊢
  split at h
  · rename_i hn
    have hlong : n.toNat * minSize < 2 ^ 64 ∧ n.toNat * minSize ≤ (bs ++ ext).length := by
      simp only [length_append]
      omega
    simp only [if_pos hlong]
    exact extensible_pure _ bs a rest ext h
  · contradiction

end Parts

section Insns

variable (formatText : FormatText)

structure ValidInsn (i : DecodedInstruction) : Prop where
  bytes_fit : i.bytes.length < 2 ^ 63
  texts_fit : (utf8 (i.texts formatText).1).length < 2 ^ 63 ∧
    (utf8 (i.texts formatText).2).length < 2 ^ 63
  formatted : i.text.lazyX86Bitness ≠ 0 → ∀ t, i.text.cell = some t →
    t = formatText i.bytes i.address i.text.lazyX86Bitness

/-- Two instructions that nothing tells apart: all but whether a text was formatted yet. -/
structure SameInsn (i j : DecodedInstruction) : Prop where
  address : i.address = j.address
  length : i.length = j.length
  bytes : i.bytes = j.bytes
  flowType : i.flowType = j.flowType
  branchTarget : i.branchTarget = j.branchTarget
  lazy : i.text.lazyX86Bitness = j.text.lazyX86Bitness
  texts : i.texts formatText = j.texts formatText

/-- The instruction read back. -/
def stored (i : DecodedInstruction) : DecodedInstruction :=
  .fromCacheParts i.address i.length i.bytes i.flowType i.branchTarget
    (i.cacheText formatText).1 (i.cacheText formatText).2

variable {formatText}

theorem same_stored {i : DecodedInstruction} (h : ValidInsn formatText i) :
    SameInsn formatText i (stored formatText i) := by
  refine ⟨rfl, rfl, rfl, rfl, rfl, rfl, ?_⟩
  by_cases hl : i.text.lazyX86Bitness = 0
  · simp only [stored, DecodedInstruction.fromCacheParts, DecodedInstruction.cacheText, if_pos hl,
      DecodedInstruction.texts]
  · -- not stored: formatted again from the bytes
    simp only [stored, DecodedInstruction.fromCacheParts, DecodedInstruction.cacheText,
      DecodedInstruction.texts, ne_eq, hl, not_false_eq_true, if_true]
    cases hc : i.text.cell with
    | none => rfl
    | some t => exact h.formatted hl t hc

theorem flows_code (f : FlowType) : flows[(flowCode f).toNat]? = some f := by
  cases f <;> rfl

theorem reads_insn {e : U64 × DecodedInstruction} (h : ValidInsn formatText e.2) (prevEnd : U64) :
    Reads (readInsn prevEnd) (writeInsn formatText prevEnd e)
      ((e.1, stored formatText e.2), insnEnd e) := by
  obtain ⟨addr, insn⟩ := e
  have hlength : (if (insn.length.zeroExtend 64).toNat < 2 ^ 32 then
      some ((insn.length.zeroExtend 64).truncate 32) else none) = some insn.length := by
    have hlt : (insn.length.zeroExtend 64).toNat < 2 ^ 32 := by
      simp only [BitVec.truncate_eq_setWidth, BitVec.toNat_setWidth]
      omega
    rw [if_pos hlt]
    simp
  have htext : ∀ m o, (insn.cacheText formatText).2 = some (m, o) →
      (utf8 m).length < 2 ^ 63 ∧ (utf8 o).length < 2 ^ 63 := by
    intro m o hmo
    simp only [DecodedInstruction.cacheText] at hmo
    split at hmo
    · have hfit := h.texts_fit
      simp only [some.inj hmo] at hfit
      exact hfit
    · contradiction
  apply (reads_delta addr prevEnd).bind
  apply (reads_delta insn.address addr).bind
  apply (reads_varint _).bind
  apply (reads_ofOption hlength).bind
  apply (reads_bytes h.bytes_fit).bind
  apply (reads_item (flowCode insn.flowType)).bind
  apply (reads_ofOption (flows_code insn.flowType)).bind
  apply (reads_branch insn.address insn.branchTarget).bind
  apply (reads_item (insn.cacheText formatText).1).bind
  apply (reads_text htext).map
  exact reads_pure _

theorem extensible_insn (prevEnd : U64) : Extensible (readInsn prevEnd) := by
  apply (extensible_delta _).bind
  intro key
  apply (extensible_delta _).bind
  intro address
  apply extensible_varint.bind
  intro v
  apply (extensible_ofOption _).bind
  intro length
  apply extensible_bytes.bind
  intro bytes
  apply extensible_item.bind
  intro code
  apply (extensible_ofOption _).bind
  intro flow
  apply (extensible_branch _).bind
  intro branch
  apply extensible_item.bind
  intro lazy
  exact extensible_text.bind fun _ => extensible_pure _

end Insns

section Refs

theorem refTypes_code (t : RefType) : refTypes[(refCode t).toNat]? = some t := by
  cases t <;> rfl

theorem reads_ref (key : U64) (r : Reference) : Reads (readRef key) (writeRef key r) r := by
  apply (reads_delta r.fromAddr key).bind
  apply (reads_delta r.toAddr key).bind
  apply (reads_item (refCode r.refType)).map
  exact (reads_ofOption (refTypes_code r.refType)).bind (reads_pure _)

theorem extensible_ref (key : U64) : Extensible (readRef key) := by
  apply (extensible_delta _).bind
  intro fromAddr
  apply (extensible_delta _).bind
  intro toAddr
  apply extensible_item.bind
  intro code
  exact (extensible_ofOption _).bind fun _ => extensible_pure _

theorem length_varint_pos (v : U64) : 0 < (varint v).length := by
  rw [varint]
  split <;> simp

/-- Every reference takes the three bytes its count promises. -/
theorem length_writeRefs (key : U64) (refs : List Reference) :
    refs.length * 3 ≤ (refs.flatMap (writeRef key)).length := by
  induction refs with
  | nil => exact Nat.zero_le _
  | cons r refs ih =>
    have hfrom := length_varint_pos (zigzag (r.fromAddr - key))
    have hto := length_varint_pos (zigzag (r.toAddr - key))
    simp only [flatMap_cons, writeRef, delta, length_cons, length_append, length_nil] at ih ⊢
    omega

theorem reads_count {α : Type} {f : ℕ → Reader Byte α} {minSize n : ℕ} {body : List Byte} {a : α}
    (hn : n < 2 ^ 64) (hsize : n * minSize < 2 ^ 64) (hbody : n * minSize ≤ body.length)
    (h : Reads (f n) body a) :
    Reads (readCount minSize >>= f) (varint (BitVec.ofNat 64 n) ++ body) a := by
  intro rest
  have hread := reads_varint (BitVec.ofNat 64 n) (body ++ rest)
  have htoNat : (BitVec.ofNat 64 n).toNat = n := by
    rw [BitVec.toNat_ofNat]
    exact Nat.mod_eq_of_lt hn
  have hcheck : n * minSize < 2 ^ 64 ∧ n * minSize ≤ (body ++ rest).length := by
    rw [length_append]
    omega
  simp only [readCount, StateT.run_bind, append_assoc, hread, StateT.run_get, htoNat,
    Option.pure_def, bind_eq_bind, bind_some, if_pos hcheck]
  exact h rest

theorem reads_refs {e : U64 × List Reference} (h : e.2.length * 24 < 2 ^ 63) (prev : U64) :
    Reads (readRefs prev) (writeRefs prev e) (e, e.1) := by
  obtain ⟨key, refs⟩ := e
  have hall := reads_readMany (reads_ref key) refs
  simp only at h
  apply (reads_delta key prev).bind
  apply reads_count (by omega) (by omega) (length_writeRefs key refs)
  exact hall.map (reads_pure _)

theorem extensible_refs (prev : U64) : Extensible (readRefs prev) := by
  apply (extensible_delta _).bind
  intro key
  apply (extensible_count 3).bind
  intro m
  exact (extensible_readMany (extensible_ref key) m).bind fun _ => extensible_pure _

end Refs

section Chunks

variable {α γ : Type} {read : U64 → Reader Byte (α × U64)} {write : U64 → γ → List Byte}
  {next : γ → U64} {image : γ → α}

theorem fillSlots_spec (read : U64 → Reader Byte (α × U64)) (prev : U64)
    (out : List (Option α)) (b : List Byte) :
    (fillSlots read prev out b).2 = ((readAll read out.length prev).run b).map Prod.snd ∧
    ∀ as rest, (readAll read out.length prev).run b = some (as, rest) →
      (fillSlots read prev out b).1 = as.map some := by
  induction out generalizing prev b with
  | nil =>
    refine ⟨rfl, ?_⟩
    intro as rest h
    have has := (Prod.mk.inj (some.inj h)).1
    exact has ▸ rfl
  | cons slot out ih =>
    simp only [fillSlots, length_cons, readAll, StateT.run_bind]
    cases hr : (read prev).run b with
    | none => exact ⟨rfl, by simp⟩
    | some v =>
      obtain ⟨⟨v, after⟩, b⟩ := v
      obtain ⟨hleft, hfilled⟩ := ih after b
      simp only [hleft, bind_eq_bind, bind_some]
      cases ht : (readAll read out.length after).run b with
      | none => exact ⟨rfl, by simp⟩
      | some t =>
        refine ⟨rfl, ?_⟩
        intro as rest h
        have has := (Prod.mk.inj (some.inj h)).1
        rw [← has, hfilled t.1 t.2 ht]
        rfl

def chunkReader (read : U64 → Reader Byte (α × U64)) (n : ℕ) : Reader Byte (List α) := do
  let m ← readVarint
  if m.toNat = n then readAll read n 0 else failure

theorem decodeChunk_eq (read : U64 → Reader Byte (α × U64)) (raw : List Byte)
    (out : List (Option α)) :
    (decodeChunk read raw out).2 = (complete (chunkReader read out.length) raw).map (fun _ => ()) ∧
    ∀ as, complete (chunkReader read out.length) raw = some as →
      (decodeChunk read raw out).1 = as.map some := by
  simp only [decodeChunk, complete, chunkReader, StateT.run_bind]
  cases hv : readVarint.run raw with
  | none => exact ⟨rfl, by simp⟩
  | some v =>
    obtain ⟨n, b⟩ := v
    simp only [bind_eq_bind, bind_some]
    by_cases hn : n.toNat = out.length
    · simp only [hn, ne_eq, not_true_eq_false, if_false, if_true]
      obtain ⟨hleft, hfilled⟩ := fillSlots_spec read 0 out b
      rw [hleft]
      cases hall : (readAll read out.length 0).run b with
      | none => exact ⟨rfl, by simp⟩
      | some t =>
        obtain ⟨as, rest⟩ := t
        cases rest with
        | nil =>
          refine ⟨rfl, ?_⟩
          intro bs hbs
          rw [hfilled as [] hall, some.inj hbs]
        | cons c rest => exact ⟨rfl, by simp⟩
    · simp only [hn, ne_eq, not_false_eq_true, if_true, if_false]
      exact ⟨rfl, fun as h => by simp [StateT.run, failure, StateT.failure] at h⟩

theorem extensible_chunk (h : ∀ s, Extensible (read s)) (n : ℕ) :
    Extensible (chunkReader read n) := by
  apply extensible_varint.bind
  intro m
  exact (extensible_readAll h n 0).ite extensible_failure

variable {entries : List γ}

theorem toNat_count {n : ℕ} (h : n < 2 ^ 63) : (BitVec.ofNat 64 n).toNat = n := by
  rw [BitVec.toNat_ofNat]
  exact Nat.mod_eq_of_lt (h.trans (by norm_num))

theorem reads_chunk (hlen : entries.length < 2 ^ 63)
    (h : ∀ e ∈ entries, ∀ s, Reads (read s) (write s e) (image e, next e)) :
    Reads (chunkReader read entries.length) (encodeChunk write next entries)
      (entries.map image) := by
  apply (reads_varint _).bind
  simp only [toNat_count hlen, if_true]
  exact reads_readAll h 0

variable (read write next) in
theorem chunk_other {n : ℕ} (hlen : entries.length < 2 ^ 63) (hn : n ≠ entries.length)
    (rest : List Byte) :
    (chunkReader read n).run (encodeChunk write next entries ++ rest) = none := by
  simp only [chunkReader, encodeChunk, append_assoc, StateT.run_bind,
    reads_varint _ _, bind_eq_bind, bind_some, toNat_count hlen, if_neg hn.symm]
  rfl

end Chunks

structure Packed {α β : Type} (encode : List α → List Byte)
    (decode : List Byte → List (Option β) → List (Option β) × Option Unit)
    (valid : α → Prop) (same : α → β → Prop) : Prop where
  /-- Chunks cut at any places, each decoded for its count, give back the list. -/
  lossless : ∀ chunks : List (List α), (∀ chunk ∈ chunks, ∀ e ∈ chunk, valid e) →
    chunks.flatten.length < 2 ^ 63 → ∃ out,
      decodePacked decode (chunks.map fun c => (c.length, encode c)) = some (out.map some) ∧
      List.Forall₂ same chunks.flatten out
  shorter : ∀ chunk : List α, (∀ e ∈ chunk, valid e) → chunk.length < 2 ^ 63 →
    ∀ raw ext, ext ≠ [] → encode chunk = raw ++ ext → ∀ out, (decode raw out).2 = none
  longer : ∀ chunk : List α, (∀ e ∈ chunk, valid e) → chunk.length < 2 ^ 63 →
    ∀ ext, ext ≠ [] → ∀ out, (decode (encode chunk ++ ext) out).2 = none
  otherCount : ∀ chunk : List α, chunk.length < 2 ^ 63 →
    ∀ out, out.length ≠ chunk.length → (decode (encode chunk) out).2 = none
  /-- Success leaves no slot unwritten, whatever the bytes. -/
  written : ∀ raw out, (decode raw out).2 = some () →
    (decode raw out).1.length = out.length ∧ ∀ slot ∈ (decode raw out).1, slot.isSome = true

section Packed

variable {α γ : Type} {read : U64 → Reader Byte (α × U64)} {write : U64 → γ → List Byte}
  {next : γ → U64} {image : γ → α} {valid : γ → Prop} {same : γ → α → Prop}

theorem foldlM_total {sections : List (ℕ × List Byte)} {total : ℕ}
    (h : total + (sections.map Prod.fst).sum < 2 ^ 64) :
    sections.foldlM (fun total s => if total + s.1 < 2 ^ 64 then some (total + s.1) else none)
      total = some (total + (sections.map Prod.fst).sum) := by
  induction sections generalizing total with
  | nil => rfl
  | cons s sections ih =>
    simp only [map_cons, sum_cons] at h ⊢
    have hs : total + s.1 < 2 ^ 64 := by omega
    simp only [foldlM_cons, if_pos hs, bind_eq_bind, bind_some]
    rw [ih (by omega), add_assoc]

theorem decode_chunk {chunk : List γ} (hlen : chunk.length < 2 ^ 63)
    (h : ∀ e ∈ chunk, ∀ s, Reads (read s) (write s e) (image e, next e)) :
    decodeChunk read (encodeChunk write next chunk) (List.replicate chunk.length none) =
      (chunk.map fun e => some (image e), some ()) := by
  have hcomplete := complete_of_reads (reads_chunk hlen h)
  obtain ⟨hstatus, hslots⟩ := decodeChunk_eq read (encodeChunk write next chunk)
    (replicate chunk.length none)
  rw [length_replicate] at hstatus hslots
  apply Prod.ext
  · rw [hslots _ hcomplete, List.map_map]
    rfl
  · rw [hstatus, hcomplete]
    rfl

theorem decode_chunks {chunks : List (List γ)} (hlen : chunks.flatten.length < 2 ^ 63)
    (h : ∀ chunk ∈ chunks, ∀ e ∈ chunk, ∀ s, Reads (read s) (write s e) (image e, next e)) :
    decodePacked (decodeChunk read) (chunks.map fun c => (c.length, encodeChunk write next c)) =
      some ((chunks.flatten.map image).map some) := by
  have hdecoded : (chunks.map fun c => (c.length, encodeChunk write next c)).map
      (fun s => decodeChunk read s.2 (replicate s.1 none)) =
      chunks.map fun c => (c.map fun e => some (image e), some ()) := by
    rw [List.map_map]
    apply map_congr_left
    intro c hc
    apply decode_chunk _ (h c hc)
    exact lt_of_le_of_lt (sublist_flatten_of_mem hc).length_le hlen
  have htotal : 0 + ((chunks.map fun c => (c.length, encodeChunk write next c)).map
      Prod.fst).sum < 2 ^ 64 := by
    simp only [List.map_map, Function.comp_def, ← length_flatten]
    omega
  simp only [decodePacked, foldlM_total htotal, hdecoded, bind_eq_bind, bind_some]
  simp [map_flatten, List.flatMap, Function.comp_def]

variable (image) in
theorem packed_of_reads (hext : ∀ s, Extensible (read s))
    (hreads : ∀ e, valid e → ∀ s, Reads (read s) (write s e) (image e, next e))
    (hsame : ∀ e, valid e → same e (image e)) :
    Packed (encodeChunk write next) (decodeChunk read) valid same := by
  have hchunk : ∀ chunk : List γ, (∀ e ∈ chunk, valid e) → chunk.length < 2 ^ 63 →
      Reads (chunkReader read chunk.length) (encodeChunk write next chunk) (chunk.map image) :=
    fun chunk hvalid hlen => reads_chunk hlen fun e he => hreads e (hvalid e he)
  constructor
  · intro chunks hvalid hlen
    refine ⟨_, decode_chunks hlen fun c hc e he => hreads e (hvalid c hc e he), ?_⟩
    rw [forall₂_map_right_iff]
    apply forall₂_same.mpr
    intro e he
    obtain ⟨c, hc, hec⟩ := mem_flatten.mp he
    exact hsame e (hvalid c hc e hec)
  · intro chunk hvalid hlen raw ext hne heq out
    rw [(decodeChunk_eq read raw out).1, map_eq_none_iff]
    by_cases hout : out.length = chunk.length
    · have hread := hchunk chunk hvalid hlen
      rw [heq, ← hout] at hread
      exact complete_shorter hread (extensible_chunk hext _) hne
    · apply eq_none_iff_forall_ne_some.mpr
      intro as has
      have hlong := extensible_chunk hext out.length raw as [] ext (complete_iff.mp has)
      have hnone := chunk_other read write next hlen hout []
      rw [append_nil, heq] at hnone
      rw [hnone] at hlong
      contradiction
  · intro chunk hvalid hlen ext hne out
    rw [(decodeChunk_eq read _ out).1, map_eq_none_iff]
    by_cases hout : out.length = chunk.length
    · rw [hout]
      exact complete_append (hchunk chunk hvalid hlen) hne
    · simp only [complete, chunk_other read write next hlen hout ext]
  · intro chunk hlen out hout
    have hnone := chunk_other read write next hlen hout []
    rw [append_nil] at hnone
    rw [(decodeChunk_eq read _ out).1, map_eq_none_iff]
    simp only [complete, hnone]
  · intro raw out hok
    obtain ⟨hstatus, hslots⟩ := decodeChunk_eq read raw out
    obtain ⟨as, has, -⟩ := map_eq_some_iff.mp (hstatus.symm.trans hok)
    have hlen : as.length = out.length := by
      have hrun := complete_iff.mp has
      simp only [chunkReader, StateT.run_bind] at hrun
      obtain ⟨⟨m, b⟩, -, hrun⟩ := bind_eq_some_iff.mp hrun
      simp only at hrun
      split at hrun
      · exact length_of_readAll hrun
      · contradiction
    rw [hslots as has]
    refine ⟨by rw [length_map, hlen], ?_⟩
    intro slot hslot
    obtain ⟨v, -, rfl⟩ := mem_map.mp hslot
    rfl

end Packed

/-- The packed encodings of the instructions and of the references lose nothing and delimit
themselves. -/
theorem packed_encodings (formatText : FormatText) :
    Packed (encodeInsns formatText) decodeInsns (fun e => ValidInsn formatText e.2)
      (fun e e' => e.1 = e'.1 ∧ SameInsn formatText e.2 e'.2) ∧
    Packed encodeRefs decodeRefs (fun e => e.2.length * 24 < 2 ^ 63) Eq := by
  constructor
  · apply packed_of_reads (fun e => (e.1, stored formatText e.2)) extensible_insn
    · exact fun e he => reads_insn he
    · exact fun e he => ⟨rfl, same_stored he⟩
  · apply packed_of_reads id extensible_refs
    · exact fun e he => reads_refs he
    · exact fun e _ => rfl

/-- A given text, a text formatted on first use, and addresses that wrap. -/
theorem packed_encodings_wrapping : let formatText : FormatText := fun _ _ _ => ("nop", "")
    let insns : List (U64 × DecodedInstruction) :=
      [(0xfffffffffffffffe, ⟨0xfffffffffffffffe, 5, [0xe8], .call, some 0x10, ⟨none, 64⟩⟩),
        (3, ⟨3, 1, [0xc3], .ret, none, ⟨some ("ret", ""), 0⟩⟩)]
    ∃ out, decodePacked decodeInsns (insns.map fun e => (1, encodeInsns formatText [e])) =
        some (out.map some) ∧
      List.Forall₂ (fun e e' => e.1 = e'.1 ∧ SameInsn formatText e.2 e'.2) insns out := by
  intro formatText insns
  apply (packed_encodings formatText).1.lossless (insns.map fun e => [e])
  · have hvalid : ∀ e ∈ insns, ValidInsn formatText e.2 := by
      intro e he
      simp only [insns, mem_cons, not_mem_nil, or_false] at he
      rcases he with rfl | rfl
      · exact ⟨by decide, by decide, by simp⟩
      · exact ⟨by decide, by decide, by simp⟩
    intro chunk hchunk e he
    obtain ⟨e', he', rfl⟩ := mem_map.mp hchunk
    exact mem_singleton.mp he ▸ hvalid e' he'
  · decide

end PackedRoundTrip
