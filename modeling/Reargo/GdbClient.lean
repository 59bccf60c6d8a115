import Reargo.GdbText
import Reargo.Utf8

/-!
# The client of the remote protocol

Commands, responses and the packet a stream of bytes begins with. A slice that ends inside a
character, or before it starts, panics.
-/
namespace GdbClient

open PcodeModel GdbStub Utf8 List

inductive GdbResponse where
  | ok
  | error (code : ℕ)
  | data (text : Text)
  | signal (sig : ℕ)
  | exited (code : ℕ)
  deriving DecidableEq, Repr

def checksum (data : Text) : Byte := (Utf8.encode data).foldl (· + ·) 0

/-- `GdbCommand::encode`. -/
def encodeCommand (data : Text) : List Byte :=
  Utf8.encode ('$' :: (data ++ '#' :: hexByte (checksum data)))

def numberBehind (letter : Char) (data : Text) : Option ℕ :=
  match data with
  | c :: rest => if c = letter then from_str_radix 8 rest else none
  | [] => none

/-- The last branch: a signal in front of more data. -/
def parseStop (data : Text) : Option GdbResponse :=
  match data with
  | 'T' :: rest =>
    if 2 ≤ len rest then
      (takeBytes 2 rest).map fun pair =>
        ((from_str_radix 8 pair).map GdbResponse.signal).getD (.data data)
    else some (.data data)
  | _ => some (.data data)

def parse (data : Text) : Option GdbResponse :=
  if data = ['O', 'K'] then some .ok
  else
    match numberBehind 'E' data, numberBehind 'S' data, numberBehind 'W' data with
    | some code, _, _ => some (.error code)
    | _, some sig, _ => some (.signal sig)
    | _, _, some code => some (.exited code)
    | none, none, none => parseStop data

def fromUtf8 (raw : List Byte) : Option Text :=
  if Utf8.encode (fromUtf8Lossy raw) = raw then some (fromUtf8Lossy raw) else none

/-- The byte at which a character first starts. -/
def find (c : Char) : Text → Option ℕ
  | [] => none
  | d :: s => if d = c then some 0 else (find c s).map (d.utf8Size + ·)

/-- The payload, if any, unless the slice panics. -/
def decodePacket (raw : List Byte) : Option (Option Text) :=
  match fromUtf8 raw with
  | none => some none
  | some s =>
    match find '$' s, find '#' s with
    | some dollar, some stop =>
      if dollar + 1 ≤ stop then (slice s (dollar + 1) stop).map some else none
    | _, _ => some none

/-- The text from the first dollar sign up to the next hash sign. -/
def FirstFrame (s payload : Text) : Prop :=
  ∃ before after, s = before ++ '$' :: (payload ++ '#' :: after) ∧ '$' ∉ before ∧ '#' ∉ payload

/-- A hash sign stands in front of the first dollar sign. -/
def HashFirst (s : Text) : Prop :=
  ∃ before after, s = before ++ '$' :: after ∧ '$' ∉ before ∧ '#' ∈ before

/-- No panic, and on text the payload of the first frame. -/
structure DecodesFirst (raw : List Byte) : Prop where
  returns : (decodePacket raw).isSome
  first : ∀ s, fromUtf8 raw = some s → ∀ p, decodePacket raw = some (some p) ↔ FirstFrame s p

section Frames

variable {before after p s : Text} {c : Char}

theorem first_unique {α : Type} {x : α} {a b a' b' : List α} (ha : x ∉ a) (hb : x ∉ b)
    (h : a ++ x :: a' = b ++ x :: b') : a = b ∧ a' = b' := by
  induction a generalizing b with
  | nil =>
    cases b with
    | nil => exact ⟨rfl, (List.cons.inj h).2⟩
    | cons y b => exact absurd ((List.cons.inj h).1 ▸ mem_cons_self) hb
  | cons y a ih =>
    cases b with
    | nil => exact absurd ((List.cons.inj h).1 ▸ mem_cons_self) ha
    | cons z b =>
      obtain ⟨rfl, tails⟩ := List.cons.inj h
      obtain ⟨rfl, rest⟩ := ih (fun m => ha (mem_cons_of_mem _ m))
        (fun m => hb (mem_cons_of_mem _ m)) tails
      exact ⟨rfl, rest⟩

theorem find_append (h : c ∉ before) : find c (before ++ c :: after) = some (len before) := by
  induction before with
  | nil => exact if_pos rfl
  | cons d before ih =>
    rw [mem_cons, not_or] at h
    rw [cons_append, find, if_neg (Ne.symm h.1), ih h.2, len_cons]
    rfl

theorem find_none (h : c ∉ s) : find c s = none := by
  induction s with
  | nil => rfl
  | cons d s ih =>
    rw [mem_cons, not_or] at h
    rw [find, if_neg (Ne.symm h.1), ih h.2]
    rfl

theorem takeBytes_append (p after : Text) : takeBytes (len p) (p ++ after) = some p := by
  induction p with
  | nil => simp [len, takeBytes]
  | cons c p ih =>
    have pos := Char.utf8Size_pos c
    obtain ⟨n, hn⟩ : ∃ n, c.utf8Size + len p = n + 1 := ⟨c.utf8Size + len p - 1, by omega⟩
    have left : n + 1 - c.utf8Size = len p := by omega
    rw [len_cons, cons_append, hn, takeBytes, if_pos (by omega), left, ih]
    rfl

theorem fromUtf8_encode (s : Text) : fromUtf8 (Utf8.encode s) = some s := by
  rw [fromUtf8, fromUtf8Lossy_encode, if_pos rfl]

theorem encode_of_fromUtf8 {raw : List Byte} (h : fromUtf8 raw = some s) : Utf8.encode s = raw := by
  unfold fromUtf8 at h
  split at h
  · rename_i same
    cases h
    exact same
  · cases h

/-- A frame behind text without a dollar sign. -/
theorem decodePacket_frame (hb : '$' ∉ before) (hh : '#' ∉ before) (hp : '#' ∉ p) :
    decodePacket (Utf8.encode (before ++ '$' :: (p ++ '#' :: after))) = some (some p) := by
  have stop : find '#' (before ++ '$' :: (p ++ '#' :: after)) = some (len before + 1 + len p) := by
    have split : before ++ '$' :: (p ++ '#' :: after) = (before ++ '$' :: p) ++ '#' :: after := by
      simp
    have absent : '#' ∉ before ++ '$' :: p := by simp [hh, hp]
    rw [split, find_append absent, len_append, len_cons, ← add_assoc]
    rfl
  have cut : slice (before ++ '$' :: (p ++ '#' :: after)) (len before + 1)
      (len before + 1 + len p) = some p := by
    have start : len (before ++ ['$']) = len before + 1 := len_append before ['$']
    have split : before ++ '$' :: (p ++ '#' :: after) =
        (before ++ ['$']) ++ (p ++ '#' :: after) := by simp
    rw [slice, split, ← start, dropBytes_append, Option.bind_some, Nat.add_sub_cancel_left,
      takeBytes_append]
  unfold decodePacket
  simp only [fromUtf8_encode, find_append hb, stop]
  rw [if_pos (by omega), cut]
  rfl

theorem decodePacket_hashFirst (h : HashFirst s) : decodePacket (Utf8.encode s) = none := by
  obtain ⟨before, after, rfl, hb, hh⟩ := h
  obtain ⟨front, back, rfl, hf⟩ := eq_append_cons_of_mem hh
  have stop : find '#' ((front ++ '#' :: back) ++ '$' :: after) = some (len front) := by
    rw [append_assoc, cons_append, find_append hf]
  have more : len front < len (front ++ '#' :: back) := by
    have one : len ('#' :: back) = 1 + len back := len_cons '#' back
    rw [len_append, one]
    omega
  unfold decodePacket
  simp only [fromUtf8_encode, find_append hb, stop]
  exact if_neg (by omega)

/-- Text without a frame: no dollar sign, or no hash sign. -/
theorem decodePacket_none (h : '$' ∉ s ∨ '#' ∉ s) : decodePacket (Utf8.encode s) = some none := by
  unfold decodePacket
  simp only [fromUtf8_encode]
  rcases h with h | h
  · rw [find_none h]
  · rw [find_none h]
    cases find '$' s <;> rfl

theorem decodesFirst_iff (raw : List Byte) :
    DecodesFirst raw ↔ ∀ s, fromUtf8 raw = some s → ¬ HashFirst s := by
  constructor
  · rintro h s hs early
    have panics := decodePacket_hashFirst early
    have returns := h.returns
    rw [encode_of_fromUtf8 hs] at panics
    rw [panics] at returns
    cases returns
  · intro tame
    cases hraw : fromUtf8 raw with
    | none =>
      have none : decodePacket raw = some none := by rw [decodePacket, hraw]
      exact ⟨by rw [none]; rfl, fun s hs => by rw [hraw] at hs; cases hs⟩
    | some s =>
      obtain rfl := encode_of_fromUtf8 hraw
      have quiet := tame s hraw
      have known : ∀ {t}, fromUtf8 (Utf8.encode s) = some t → t = s := fun ht =>
        Option.some.inj (ht.symm.trans hraw)
      by_cases present : '$' ∈ s ∧ '#' ∈ s
      · obtain ⟨before, rest, rfl, hb⟩ := eq_append_cons_of_mem present.1
        have hh : '#' ∉ before := fun h => quiet ⟨before, rest, rfl, hb, h⟩
        have behind : '#' ∈ rest := by simpa [hh] using present.2
        obtain ⟨p, after, rfl, hp⟩ := eq_append_cons_of_mem behind
        have found := @decodePacket_frame _ after p hb hh hp
        refine ⟨by rw [found]; rfl, fun t ht q => ?_⟩
        rw [known ht, found, Option.some.injEq, Option.some.injEq]
        constructor
        · rintro rfl
          exact ⟨before, after, rfl, hb, hp⟩
        · rintro ⟨before', after', heq, hb', hq⟩
          obtain ⟨-, same⟩ := first_unique hb hb' heq
          exact (first_unique hp hq same).1
      · have none := decodePacket_none (not_and_or.mp present)
        refine ⟨by rw [none]; rfl, fun t ht q => ?_⟩
        rw [known ht, none]
        refine iff_of_false (by simp) ?_
        rintro ⟨before, after, rfl, -, -⟩
        exact present (by simp)

end Frames

section RoundTrip

variable {before after : List Byte} {d s : Text}

theorem encode_split {c : Char} {rest : List Byte} (hc : c.toNat < 0x80)
    (h : Utf8.encode s = before ++ byte c.toNat :: rest) :
    ∃ front back, s = front ++ c :: back ∧ Utf8.encode front = before ∧
      Utf8.encode back = rest := by
  induction s generalizing before with
  | nil => simp [Utf8.encode] at h
  | cons e s ih =>
    have whole : Utf8.encode (e :: s) = encodeChar e ++ Utf8.encode s := rfl
    rw [whole] at h
    rcases append_eq_append_iff.mp h with ⟨more, rfl, later⟩ | ⟨more, here, later⟩
    · obtain ⟨front, back, rfl, rfl, hback⟩ := ih later
      exact ⟨e :: front, back, rfl, rfl, hback⟩
    · cases more with
      | nil =>
        obtain ⟨front, back, rfl, hfront, hback⟩ := @ih [] later.symm
        rw [append_nil] at here
        refine ⟨e :: front, back, rfl, ?_, hback⟩
        rw [← here, ← append_nil (encodeChar e), ← hfront]
        rfl
      | cons b more =>
        obtain ⟨rfl, tails⟩ := List.cons.inj later
        have value : (byte c.toNat).toNat = c.toNat := toNat_byte (by omega)
        have same : c = e := by
          have mem : byte c.toNat ∈ encodeChar e := by simp [here]
          have eq := mem_encodeChar mem (by rw [value]; exact hc)
          rw [value] at eq
          exact Char.toNat_inj.mp eq
        subst same
        have single : encodeChar c = [byte c.toNat] := if_pos hc
        rw [single] at here
        cases before with
        | nil =>
          obtain ⟨-, rfl⟩ := List.cons.inj here
          exact ⟨[], s, rfl, rfl, by simpa using tails.symm⟩
        | cons x before => simp at here

theorem lowerDigit_ascii {n : ℕ} (h : n < 16) : (lowerDigit n).toNat < 0x80 := by
  interval_cases n <;> decide

def TextAround (before after : List Byte) : Prop :=
  (∃ s, Utf8.encode s = before ∧ '#' ∉ s) ∧ ∃ s, Utf8.encode s = after

theorem decodePacket_encodeCommand_iff (hh : '#' ∉ d) (hb : byte '$'.toNat ∉ before) :
    decodePacket (before ++ (encodeCommand d ++ after)) = some (some d) ↔
      TextAround before after := by
  obtain ⟨x, y, hex, hy⟩ : ∃ x y, hexByte (checksum d) = [x, y] ∧ y.toNat < 0x80 :=
    ⟨_, _, rfl, lowerDigit_ascii (Nat.mod_lt _ (by decide))⟩
  constructor
  · intro decoded
    cases hraw : fromUtf8 (before ++ (encodeCommand d ++ after)) with
    | none =>
      rw [decodePacket, hraw] at decoded
      cases decoded
    | some s =>
      have bytes := encode_of_fromUtf8 hraw
      have dollar : encodeCommand d ++ after = byte '$'.toNat ::
          (Utf8.encode (d ++ ['#', x]) ++ byte y.toNat :: after) := by
        have first : encodeChar '$' = [byte '$'.toNat] := rfl
        have last : encodeChar y = [byte y.toNat] := if_pos hy
        simp [encodeCommand, hex, Utf8.encode, first, last]
      rw [dollar] at bytes
      obtain ⟨front, back, rfl, hfront, hback⟩ := encode_split (c := '$') (by decide) bytes
      obtain ⟨-, rest, -, -, hrest⟩ := encode_split hy hback
      refine ⟨⟨front, hfront, fun early => ?_⟩, rest, hrest⟩
      have absent : '$' ∉ front := by
        intro m
        apply hb
        rw [← hfront]
        exact mem_flatMap.mpr ⟨'$', m, by decide⟩
      have panics := decodePacket_hashFirst ⟨front, back, rfl, absent, early⟩
      rw [encode_of_fromUtf8 hraw, decoded] at panics
      cases panics
  · rintro ⟨⟨front, rfl, hf⟩, back, rfl⟩
    have absent : '$' ∉ front := fun m => hb (mem_flatMap.mpr ⟨'$', m, by decide⟩)
    have frame := @decodePacket_frame _ (hexByte (checksum d) ++ back) d absent hf hh
    have bytes : Utf8.encode (front ++ '$' :: (d ++ '#' :: (hexByte (checksum d) ++ back))) =
        Utf8.encode front ++ (encodeCommand d ++ Utf8.encode back) := by
      simp [encodeCommand, Utf8.encode]
    rwa [bytes] at frame

end RoundTrip

theorem takeBytes_none_iff {rest : Text} (h : 2 ≤ len rest) :
    takeBytes 2 rest = none ↔ CutsInside rest := by
  constructor
  · intro hn
    match rest, h with
    | [], h => exact absurd h (by decide)
    | [c], h =>
      refine .inl ⟨c, [], rfl, ?_⟩
      by_contra small
      have two : c.utf8Size = 2 := by
        simp [len] at h
        omega
      simp [takeBytes, two] at hn
    | c :: e :: rest, h =>
      have pc := Char.utf8Size_pos c
      have pe := Char.utf8Size_pos e
      by_cases one : c.utf8Size = 1
      · refine .inr ⟨c, e, rest, rfl, one, ?_⟩
        by_contra small
        have two : e.utf8Size = 1 := by omega
        simp [takeBytes, one, two] at hn
      · refine .inl ⟨c, e :: rest, rfl, ?_⟩
        by_contra small
        have two : c.utf8Size = 2 := by omega
        simp [takeBytes, two] at hn
  · exact takeBytes_cut

/-- A stop reply whose first two bytes end inside a character. -/
def CutStop (data : Text) : Prop := ∃ rest, data = 'T' :: rest ∧ CutsInside rest

theorem two_le_len {rest : Text} (h : CutsInside rest) : 2 ≤ len rest := by
  rcases h with ⟨c, rest, rfl, hc⟩ | ⟨c, e, rest, rfl, hc, he⟩
  · rw [len_cons]
    omega
  · rw [len_cons, len_cons]
    omega

theorem parse_returns_iff (data : Text) : (parse data).isSome ↔ ¬ CutStop data := by
  match data with
  | [] => exact iff_of_true rfl fun ⟨rest, h, _⟩ => by cases h
  | c :: rest =>
    by_cases hc : c = 'T'
    · subst hc
      have stop : parse ('T' :: rest) = parseStop ('T' :: rest) := by
        simp [parse, numberBehind]
      have cut : CutStop ('T' :: rest) ↔ CutsInside rest := by
        constructor
        · rintro ⟨r, h, hr⟩
          cases h
          exact hr
        · exact fun h => ⟨rest, rfl, h⟩
      rw [stop, cut, parseStop]
      by_cases long : 2 ≤ len rest
      · rw [if_pos long, Option.isSome_map, ← takeBytes_none_iff long, Option.isSome_iff_ne_none]
      · rw [if_neg long]
        exact iff_of_true rfl fun h => long (two_le_len h)
    · refine iff_of_true ?_ fun ⟨r, h, _⟩ => hc (List.cons.inj h).1
      have other : parseStop (c :: rest) = some (.data (c :: rest)) := by
        unfold parseStop
        split
        · rename_i h
          exact absurd (List.cons.inj h).1 hc
        · rfl
      unfold parse
      split
      · rfl
      · split <;> first | rfl | rw [other]; rfl

/-- Which streams, replies and surroundings the client handles as it should. -/
theorem client_decodes_iff (raw before after : List Byte) (data d : Text) :
    (DecodesFirst raw ↔ ∀ s, fromUtf8 raw = some s → ¬ HashFirst s) ∧
    ((parse data).isSome ↔ ¬ CutStop data) ∧
    ('#' ∉ d → byte '$'.toNat ∉ before →
      (decodePacket (before ++ (encodeCommand d ++ after)) = some (some d) ↔
        TextAround before after)) :=
  ⟨decodesFirst_iff raw, parse_returns_iff data, fun hh hb => decodePacket_encodeCommand_iff hh hb⟩

theorem client_decodes_acknowledged :
    decodePacket (Utf8.encode ['+'] ++ (encodeCommand ['O', 'K'] ++ [])) = some (some ['O', 'K']) :=
  ((client_decodes_iff [] (Utf8.encode ['+']) [] [] ['O', 'K']).2.2 (by decide) (by decide)).mpr
    ⟨⟨['+'], rfl, by decide⟩, [], rfl⟩

/-- The end of an earlier frame in front of a frame. -/
theorem leftover_panics :
    ¬ DecodesFirst (Utf8.encode ['#', '9', 'a', '$', 'O', 'K', '#', '9', 'a']) := by
  intro h
  have panics := decodePacket_hashFirst (s := ['#', '9', 'a', '$', 'O', 'K', '#', '9', 'a'])
    ⟨['#', '9', 'a'], ['O', 'K', '#', '9', 'a'], rfl, by decide, by decide⟩
  have returns := h.returns
  rw [panics] at returns
  cases returns

end GdbClient
