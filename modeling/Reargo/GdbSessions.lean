import Reargo.Utf8
import Reargo.GdbPackets

/-!
# Sessions of the debugger protocol

The framing of packets in a stream of bytes and the loop that serves them. Both ends of the
connection are lists of bytes; a stream is a row of skipped bytes, interrupts and frames, and the
loop answers them piece by piece.
-/
namespace GdbStub

open PcodeModel Utf8 List

def checksum (payload : Text) : Byte := (encode payload).foldl (· + ·) 0

def encode_packet (payload : Text) : List Byte :=
  encode ('$' :: payload ++ '#' :: hexByte (checksum payload))

/-- What stands in front of a payload. -/
inductive Start where
  | eof
  | interrupt (rest : List Byte)
  | packet (rest : List Byte)

/-- Acknowledgements and stray bytes are ignored. -/
def findStart : List Byte → Start
  | [] => .eof
  | b :: rest =>
    if b = 0x24 then .packet rest else if b = 0x03 then .interrupt rest else findStart rest

/-- The bytes up to `#` and those behind it. -/
def readPayload : List Byte → Option (List Byte × List Byte)
  | [] => none
  | b :: rest =>
    if b = 0x23 then some ([], rest) else (readPayload rest).map fun p => (b :: p.1, p.2)

/-- No packet at the end of the stream, an error, or a packet with what is written for it. -/
inductive Received where
  | closed
  | failed
  | packet (text : Text) (acks rest : List Byte)

def interruptText : Text := [Char.ofNat 3]

def read_packet (reader : List Byte) : Received :=
  match findStart reader with
  | .eof => .closed
  | .interrupt rest => .packet interruptText [] rest
  | .packet rest =>
    match readPayload rest with
    | none => .closed
    | some (payload, _ :: _ :: rest) => .packet (fromUtf8Lossy payload) [0x2B] rest
    | some _ => .failed

theorem findStart_shorter (stream : List Byte) : match findStart stream with
    | .eof => True
    | .interrupt rest | .packet rest => rest.length < stream.length := by
  induction stream with
  | nil => trivial
  | cons b stream ih =>
    rw [findStart]
    split_ifs
    · exact Nat.lt_succ_self _
    · exact Nat.lt_succ_self _
    · revert ih
      cases findStart stream with
      | eof => exact id
      | interrupt rest => exact fun ih => Nat.lt_succ_of_lt ih
      | packet rest => exact fun ih => Nat.lt_succ_of_lt ih

variable {stream : List Byte}

theorem readPayload_shorter {payload rest : List Byte}
    (h : readPayload stream = some (payload, rest)) : rest.length < stream.length := by
  induction stream generalizing payload with
  | nil => cases h
  | cons b stream ih =>
    rw [readPayload] at h
    split_ifs at h
    · cases h
      exact Nat.lt_succ_self _
    · obtain ⟨p, hp, heq⟩ := Option.map_eq_some_iff.mp h
      cases heq
      exact Nat.lt_succ_of_lt (ih hp)

theorem read_packet_shorter {acks rest : List Byte} {text : Text}
    (h : read_packet stream = .packet text acks rest) : rest.length < stream.length := by
  have start := findStart_shorter stream
  unfold read_packet at h
  split at h
  · cases h
  · rename_i hs
    rw [hs] at start
    cases h
    exact start
  · rename_i behind hs
    rw [hs] at start
    split at h
    · cases h
    · rename_i hp
      cases h
      have shorter := readPayload_shorter hp
      simp only [length_cons] at shorter start
      omega
    · cases h

inductive Ended where
  | closed
  | failed
  | left
  | panicked
  deriving DecidableEq, Repr

/-- The payloads handed to the stub, in order, and what the client sees. -/
structure Session (R : Type) where
  handed : List Text
  written : List Byte
  target : EmulatorTarget R
  ended : Ended

variable {R : Type} {ended : Ended}

def Session.behind (s : Session R) (handed : List Text) (written : List Byte) : Session R :=
  { s with handed := handed ++ s.handed, written := written ++ s.written }

def S05 : Text := ['S', '0', '5']

def serve_stream (resume : Resume R) (t : EmulatorTarget R) (stream : List Byte) : Session R :=
  match _h : read_packet stream with
  | .closed => ⟨[], [], t, .closed⟩
  | .failed => ⟨[], [], t, .failed⟩
  | .packet packet acks rest =>
    if packet = interruptText then
      (serve_stream resume t rest).behind [] (acks ++ encode_packet S05)
    else
      match handle_packet resume t packet with
      | none => ⟨[packet], acks, t, .panicked⟩
      | some (response, t') =>
        let written := acks ++ response.elim [] encode_packet
        if response = none ∧ packet.head? = some 'k' then ⟨[packet], written, t', .left⟩
        else if packet.head? = some 'D' then ⟨[packet], written, t', .left⟩
        else (serve_stream resume t' rest).behind [packet] written
termination_by stream.length
decreasing_by all_goals exact read_packet_shorter _h

inductive Piece where
  | skipped (b : Byte)
  | interrupt
  | frame (payload : List Byte) (c d : Byte)
  deriving DecidableEq

def Piece.bytes : Piece → List Byte
  | .skipped b => [b]
  | .interrupt => [0x03]
  | .frame payload c d => 0x24 :: (payload ++ [0x23, c, d])

def Piece.Fits : Piece → Prop
  | .skipped b => b ≠ 0x24 ∧ b ≠ 0x03
  | .interrupt => True
  | .frame payload _ _ => 0x23 ∉ payload

/-- Behind the last piece nothing, a payload without an end, or one without its checksum. -/
inductive Trailing : List Byte → Ended → Prop where
  | none : Trailing [] .closed
  | unfinished {payload} : 0x23 ∉ payload → Trailing (0x24 :: payload) .closed
  | unchecked {payload check} : 0x23 ∉ payload → check.length < 2 →
      Trailing (0x24 :: (payload ++ 0x23 :: check)) .failed

inductive Consists : List Byte → List Piece → Ended → Prop where
  | trailing {tail ended} : Trailing tail ended → Consists tail [] ended
  | piece {p stream pieces ended} : p.Fits → Consists stream pieces ended →
      Consists (p.bytes ++ stream) (p :: pieces) ended

def Piece.packet : Piece → Option Text
  | .frame payload _ _ =>
    let packet := fromUtf8Lossy payload
    if packet = interruptText then none else some packet
  | _ => none

def packets (pieces : List Piece) : List Text := pieces.filterMap Piece.packet

/-- The client kills the target or detaches. -/
def Leaves (packet : Text) : Prop := packet.head? = some 'k' ∨ packet.head? = some 'D'

def answer (resume : Resume R) (t : EmulatorTarget R) :
    Piece → Option (List Byte × EmulatorTarget R)
  | .skipped _ => some ([], t)
  | .interrupt => some (encode_packet S05, t)
  | .frame payload _ _ =>
    let packet := fromUtf8Lossy payload
    if packet = interruptText then some (0x2B :: encode_packet S05, t)
    else (handle_packet resume t packet).map fun r => (0x2B :: r.1.elim [] encode_packet, r.2)

def answers (resume : Resume R) (t : EmulatorTarget R) :
    List Piece → Option (List Byte × EmulatorTarget R)
  | [] => some ([], t)
  | p :: pieces => do
    let (out, t₁) ← answer resume t p
    let (out', t₂) ← answers resume t₁ pieces
    return (out ++ out', t₂)

inductive Serves (resume : Resume R) (t : EmulatorTarget R) :
    List Piece → Ended → Session R → Prop where
  | through {pieces ended out t'} : answers resume t pieces = some (out, t') →
      (∀ packet ∈ packets pieces, ¬ Leaves packet) →
      Serves resume t pieces ended ⟨packets pieces, out, t', ended⟩
  | left {before p packet later ended out t'} : p.packet = some packet → Leaves packet →
      answers resume t (before ++ [p]) = some (out, t') →
      (∀ packet ∈ packets before, ¬ Leaves packet) →
      Serves resume t (before ++ p :: later) ended ⟨packets (before ++ [p]), out, t', .left⟩
  | panicked {before p packet later ended out t'} : p.packet = some packet →
      answers resume t before = some (out, t') → handle_packet resume t' packet = none →
      (∀ packet ∈ packets before, ¬ Leaves packet) →
      Serves resume t (before ++ p :: later) ended
        ⟨packets (before ++ [p]), out ++ [0x2B], t', .panicked⟩

theorem readPayload_append {payload : List Byte} (rest : List Byte) (h : 0x23 ∉ payload) :
    readPayload (payload ++ 0x23 :: rest) = some (payload, rest) := by
  induction payload with
  | nil => rfl
  | cons b payload ih =>
    obtain ⟨hb, h⟩ := not_or.mp (mt mem_cons.mpr h)
    rw [cons_append, readPayload, if_neg (Ne.symm hb), ih h]
    rfl

theorem readPayload_none {payload : List Byte} (h : 0x23 ∉ payload) :
    readPayload payload = none := by
  induction payload with
  | nil => rfl
  | cons b payload ih =>
    obtain ⟨hb, h⟩ := not_or.mp (mt mem_cons.mpr h)
    rw [readPayload, if_neg (Ne.symm hb), ih h]
    rfl

theorem read_skipped {b : Byte} (stream : List Byte) (h : b ≠ 0x24) (h' : b ≠ 0x03) :
    read_packet (b :: stream) = read_packet stream := by
  rw [read_packet, findStart, if_neg h, if_neg h', ← read_packet]

theorem read_frame {payload : List Byte} (c d : Byte) (stream : List Byte) (h : 0x23 ∉ payload) :
    read_packet ((Piece.frame payload c d).bytes ++ stream) =
      .packet (fromUtf8Lossy payload) [0x2B] stream := by
  have bytes : (Piece.frame payload c d).bytes ++ stream =
      0x24 :: (payload ++ 0x23 :: c :: d :: stream) := by
    simp [Piece.bytes]
  rw [bytes, read_packet, findStart, if_pos rfl]
  dsimp only
  rw [readPayload_append _ h]

theorem read_trailing {tail : List Byte} (h : Trailing tail ended) :
    (ended = .closed ∧ read_packet tail = .closed) ∨
      (ended = .failed ∧ read_packet tail = .failed) := by
  cases h with
  | none => exact .inl ⟨rfl, rfl⟩
  | unfinished hp =>
    refine .inl ⟨rfl, ?_⟩
    rw [read_packet, findStart, if_pos rfl]
    dsimp only
    rw [readPayload_none hp]
  | @unchecked payload check hp hc =>
    refine .inr ⟨rfl, ?_⟩
    rw [read_packet, findStart, if_pos rfl]
    dsimp only
    rw [readPayload_append _ hp]
    match check, hc with
    | [], _ => rfl
    | [_], _ => rfl
    | _ :: _ :: _, hc => simp only [length_cons] at hc; omega

theorem read_encoded {payload : Text} (rest : List Byte) (h : '#' ∉ payload) :
    read_packet (encode_packet payload ++ rest) = .packet payload [0x2B] rest := by
  have digit (n : ℕ) (hn : n < 16) : ∃ b, encodeChar (lowerDigit n) = [b] := by
    interval_cases n <;> exact ⟨_, rfl⟩
  have small := (checksum payload).isLt
  obtain ⟨c, hc⟩ := digit ((checksum payload).toNat / 16) (by omega)
  obtain ⟨d, hd⟩ := digit ((checksum payload).toNat % 16) (by omega)
  have bytes : encode_packet payload = (Piece.frame (encode payload) c d).bytes := by
    rw [encode_packet, encode, flatMap_append, flatMap_cons, flatMap_cons, hexByte,
      flatMap_cons, flatMap_cons, flatMap_nil, hc, hd]
    rfl
  have whole : (0x23 : Byte) ∉ encode payload := fun hm => h (mem_encode hm (by decide))
  rw [bytes, read_frame c d rest whole, fromUtf8Lossy_encode]

section Serving

variable (resume : Resume R) {t : EmulatorTarget R} {pieces : List Piece}

theorem serve_end :
    (read_packet stream = .closed → serve_stream resume t stream = ⟨[], [], t, .closed⟩) ∧
      (read_packet stream = .failed → serve_stream resume t stream = ⟨[], [], t, .failed⟩) := by
  constructor
  · intro h
    rw [serve_stream]
    split <;> simp_all
  · intro h
    rw [serve_stream]
    split <;> simp_all

theorem serve_packet {acks rest : List Byte} {packet : Text}
    (h : read_packet stream = .packet packet acks rest) :
    serve_stream resume t stream =
      if packet = interruptText then
        (serve_stream resume t rest).behind [] (acks ++ encode_packet S05)
      else
        match handle_packet resume t packet with
        | none => ⟨[packet], acks, t, .panicked⟩
        | some (response, t') =>
          let written := acks ++ response.elim [] encode_packet
          if response = none ∧ packet.head? = some 'k' then ⟨[packet], written, t', .left⟩
          else if packet.head? = some 'D' then ⟨[packet], written, t', .left⟩
          else (serve_stream resume t' rest).behind [packet] written := by
  rw [serve_stream]
  split
  · simp_all
  · simp_all
  · rename_i h'
    rw [h] at h'
    cases h'
    rfl

theorem serve_congr {stream' : List Byte} (h : read_packet stream = read_packet stream') :
    serve_stream resume t stream = serve_stream resume t stream' := by
  cases h' : read_packet stream' with
  | closed => rw [(serve_end resume).1 (h.trans h'), (serve_end resume).1 h']
  | failed => rw [(serve_end resume).2 (h.trans h'), (serve_end resume).2 h']
  | packet packet acks rest => rw [serve_packet resume (h.trans h'), serve_packet resume h']

theorem answers_cons {t₁ t₂ : EmulatorTarget R} {p : Piece} {out out' : List Byte}
    (h : answer resume t p = some (out, t₁)) (h' : answers resume t₁ pieces = some (out', t₂)) :
    answers resume t (p :: pieces) = some (out ++ out', t₂) := by
  rw [answers, h]
  change (answers resume t₁ pieces).bind _ = _
  rw [h']
  rfl

theorem packets_cons (p : Piece) (pieces : List Piece) :
    packets (p :: pieces) = p.packet.toList ++ packets pieces := by
  cases h : p.packet with
  | none => rw [packets, filterMap_cons_none h]; rfl
  | some packet => rw [packets, filterMap_cons_some h]; rfl

theorem Serves.cons {t₁ : EmulatorTarget R} {p : Piece} {s : Session R} {out : List Byte}
    (h : answer resume t p = some (out, t₁))
    (stays : ∀ packet ∈ p.packet.toList, ¬ Leaves packet) (hs : Serves resume t₁ pieces ended s) :
    Serves resume t (p :: pieces) ended (s.behind p.packet.toList out) := by
  have all {before : List Piece} (hb : ∀ packet ∈ packets before, ¬ Leaves packet) :
      ∀ packet ∈ packets (p :: before), ¬ Leaves packet := by
    intro packet hp
    rw [packets_cons, mem_append] at hp
    exact hp.elim (stays packet) (hb packet)
  cases hs with
  | through ha hb =>
    rw [Session.behind, ← packets_cons]
    exact .through (answers_cons resume h ha) (all hb)
  | left hp hl ha hb =>
    rw [Session.behind, ← packets_cons]
    exact .left hp hl (answers_cons resume h ha) (all hb)
  | panicked hp ha hn hb =>
    rw [Session.behind, ← packets_cons, ← append_assoc]
    exact .panicked hp (answers_cons resume h ha) hn (all hb)

theorem handle_k {packet : Text} (t : EmulatorTarget R) (h : packet.head? = some 'k') :
    handle_packet resume t packet = some (none, t) := by
  obtain ⟨rest, rfl⟩ := head?_eq_some_iff.mp h
  rfl

/-- A packet ends the loop exactly if the client leaves with it. -/
theorem serve_handled {t' : EmulatorTarget R} {acks rest : List Byte} {packet : Text}
    {response : Option Text} (h : read_packet stream = .packet packet acks rest)
    (hi : packet ≠ interruptText) (hh : handle_packet resume t packet = some (response, t')) :
    serve_stream resume t stream =
      if packet.head? = some 'k' ∨ packet.head? = some 'D' then
        ⟨[packet], acks ++ response.elim [] encode_packet, t', .left⟩
      else (serve_stream resume t' rest).behind [packet] (acks ++ response.elim [] encode_packet) := by
  rw [serve_packet resume h, if_neg hi, hh]
  dsimp only
  by_cases hk : packet.head? = some 'k'
  · have hn := (handle_k resume t hk).symm.trans hh
    cases hn
    rw [if_pos ⟨rfl, hk⟩, if_pos (.inl hk)]
  · rw [if_neg fun hn => hk hn.2]
    by_cases hd : packet.head? = some 'D'
    · rw [if_pos hd, if_pos (.inr hd)]
    · rw [if_neg hd, if_neg (not_or.mpr ⟨hk, hd⟩)]

theorem serves_frame {payload : List Byte} (c d : Byte) (fits : 0x23 ∉ payload)
    (ih : ∀ t, Serves resume t pieces ended (serve_stream resume t stream)) :
    Serves resume t (.frame payload c d :: pieces) ended
      (serve_stream resume t ((Piece.frame payload c d).bytes ++ stream)) := by
  have read := read_frame c d stream fits
  by_cases hi : fromUtf8Lossy payload = interruptText
  · have nothing : (Piece.frame payload c d).packet = none := if_pos hi
    have sent : answer resume t (.frame payload c d) = some (0x2B :: encode_packet S05, t) :=
      if_pos hi
    have served := (ih t).cons resume sent (by rw [nothing]; exact nofun)
    rw [nothing] at served
    rw [serve_packet resume read, if_pos hi]
    exact served
  have packet : (Piece.frame payload c d).packet = some (fromUtf8Lossy payload) := if_neg hi
  have sent : answer resume t (.frame payload c d) =
      (handle_packet resume t (fromUtf8Lossy payload)).map
        fun r => (0x2B :: r.1.elim [] encode_packet, r.2) := if_neg hi
  have single : packets ([] ++ [Piece.frame payload c d]) = [fromUtf8Lossy payload] := by
    rw [nil_append, packets_cons, packet]
    rfl
  cases hh : handle_packet resume t (fromUtf8Lossy payload) with
  | none =>
    rw [serve_packet resume read, if_neg hi, hh, ← single]
    change Serves resume t ([] ++ .frame payload c d :: pieces) ended _
    exact .panicked packet (rfl : answers resume t [] = some ([], t)) hh nofun
  | some r =>
    obtain ⟨response, t'⟩ := r
    rw [hh] at sent
    rw [serve_handled resume read hi hh]
    split_ifs with leaves
    · rw [← single]
      have answered := answers_cons resume sent (rfl : answers resume t' [] = some ([], t'))
      rw [append_nil] at answered
      change Serves resume t ([] ++ .frame payload c d :: pieces) ended _
      exact .left packet leaves answered nofun
    · have served := (ih t').cons resume sent (by rw [packet]; simpa [Leaves] using leaves)
      rw [packet] at served
      exact served

theorem serves (h : Consists stream pieces ended) (t : EmulatorTarget R) :
    Serves resume t pieces ended (serve_stream resume t stream) := by
  induction h generalizing t with
  | trailing ht =>
    rcases read_trailing ht with ⟨rfl, hr⟩ | ⟨rfl, hr⟩
    · rw [(serve_end resume).1 hr]
      exact .through rfl nofun
    · rw [(serve_end resume).2 hr]
      exact .through rfl nofun
  | @piece p stream pieces ended hp _ ih =>
    cases p with
    | skipped b =>
      rw [Piece.bytes, singleton_append, serve_congr resume (read_skipped stream hp.1 hp.2)]
      exact (ih t).cons resume (p := .skipped b) rfl nofun
    | interrupt =>
      have read : read_packet (Piece.interrupt.bytes ++ stream) =
          .packet interruptText [] stream := rfl
      rw [serve_packet resume read, if_pos rfl]
      exact (ih t).cons resume (p := .interrupt) rfl nofun
    | frame payload c d => exact serves_frame resume c d hp ih

end Serving

theorem consists (stream : List Byte) : ∃ pieces ended, Consists stream pieces ended := by
  induction hn : stream.length using Nat.strong_induction_on generalizing stream with
  | _ n ih =>
  subst hn
  match stream, ih with
  | [], _ => exact ⟨[], .closed, .trailing .none⟩
  | b :: stream, ih =>
    by_cases hd : b = 0x24
    · subst hd
      by_cases hm : 0x23 ∈ stream
      · obtain ⟨payload, check, rfl, hp⟩ := eq_append_cons_of_mem hm
        match check, ih with
        | [], _ => exact ⟨[], .failed, .trailing (.unchecked hp (by decide))⟩
        | [c], _ => exact ⟨[], .failed, .trailing (.unchecked hp Nat.one_lt_two)⟩
        | c :: d :: rest, ih =>
          obtain ⟨pieces, ended, hc⟩ := ih rest.length (by simp; omega) rest rfl
          have whole := Consists.piece (p := .frame payload c d) hp hc
          rw [Piece.bytes, cons_append, append_assoc] at whole
          exact ⟨_, ended, whole⟩
      · exact ⟨[], .closed, .trailing (.unfinished hm)⟩
    · obtain ⟨pieces, ended, hc⟩ := ih stream.length (Nat.lt_succ_self _) stream rfl
      by_cases hb : b = 0x03
      · subst hb
        exact ⟨_, ended, .piece (p := .interrupt) trivial hc⟩
      · exact ⟨_, ended, .piece (p := .skipped b) ⟨hd, hb⟩ hc⟩

/-- In every stream the packets handed to the stub are the payloads of its frames in order, up to
the one with which the client leaves; each frame is acknowledged whatever its checksum. What was
encoded is read back. -/
theorem serves_frames_in_order (resume : Resume R) (t : EmulatorTarget R) (stream : List Byte) :
    (∃ pieces ended, Consists stream pieces ended) ∧
      (∀ pieces ended, Consists stream pieces ended →
        Serves resume t pieces ended (serve_stream resume t stream)) ∧
      ∀ (payload : Text) (rest : List Byte), '#' ∉ payload →
        read_packet (encode_packet payload ++ rest) = .packet payload [0x2B] rest :=
  ⟨consists stream, fun _ _ h => serves resume h t, fun _ rest h => read_encoded rest h⟩

/-- The two bytes are the digits of the sum of the payload. -/
def Piece.Intact : Piece → Prop
  | .frame payload c d =>
    from_str_radix 8 [Char.ofNat c.toNat, Char.ofNat d.toNat] = some (payload.foldl (· + ·) 0).toNat
  | _ => True

instance : DecidablePred Piece.Intact := fun p => by
  cases p <;> unfold Piece.Intact <;> infer_instance

/-- A client asks for the halt reason and detaches with a sum that is wrong. -/
def detachStream : List Byte := [0x24, 0x3F, 0x23, 0x33, 0x66, 0x24, 0x44, 0x23, 0x61, 0x61]

def detachPieces : List Piece := [.frame [0x3F] 0x33 0x66, .frame [0x44] 0x61 0x61]

/-- The frame is not intact, yet its payload is handed over and it is not refused. -/
theorem wrong_checksum_served : Consists detachStream detachPieces .closed ∧
    packets (detachPieces.filter (·.Intact)) = [['?']] ∧
      (serve_stream trapping restingTarget detachStream).handed = [['?'], ['D']] ∧
        0x2D ∉ (serve_stream trapping restingTarget detachStream).written := by
  have ask : fromUtf8Lossy [0x3F] = ['?'] := fromUtf8Lossy_encode ['?']
  have detach : fromUtf8Lossy [0x44] = ['D'] := fromUtf8Lossy_encode ['D']
  have served : serve_stream trapping restingTarget detachStream =
      ⟨[['?'], ['D']], 0x2B :: encode_packet S05 ++ 0x2B :: encode_packet OK, restingTarget,
        .left⟩ := by
    have first : read_packet detachStream =
        .packet (fromUtf8Lossy [0x3F]) [0x2B] [0x24, 0x44, 0x23, 0x61, 0x61] := rfl
    have second : read_packet [0x24, 0x44, 0x23, 0x61, 0x61] =
        .packet (fromUtf8Lossy [0x44]) [0x2B] [] := rfl
    rw [ask] at first
    rw [detach] at second
    rw [serve_handled trapping first (by decide) rfl, if_neg (by decide),
      serve_handled trapping second (by decide) rfl, if_pos (.inr rfl)]
    rfl
  refine ⟨?_, ?_, by rw [served], by rw [served]; decide⟩
  · have fits (b : Byte) (hb : b ≠ 0x23) : (0x23 : Byte) ∉ [b] := by simpa using hb.symm
    exact .piece (p := .frame [0x3F] 0x33 0x66) (fits _ (by decide))
      (.piece (p := .frame [0x44] 0x61 0x61) (fits _ (by decide)) (.trailing .none))
  · have intact : detachPieces.filter (·.Intact) = [.frame [0x3F] 0x33 0x66] := by decide
    have packet : (Piece.frame [0x3F] 0x33 0x66).packet = some ['?'] := by
      rw [Piece.packet, ask]
      rfl
    rw [intact, packets_cons, packet]
    rfl

end GdbStub
