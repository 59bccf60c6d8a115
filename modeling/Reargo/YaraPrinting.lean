import Reargo.YaraSyntax

/-!
# Printing rules

Rules are printed as pieces, the pieces are laid out with blanks and comments between them,
and the lexer and the parser read the rules back.
-/
namespace YaraLite

open List
open Bool (false_eq_true)

inductive Piece where
  | word (s : Text)
  | stringRef (s : Text)
  | quoted (bytes : List UInt8)
  | hexBlock (body : List UInt8)
  | number (n : ℕ)
  | lbrace
  | rbrace
  | lparen
  | rparen
  | colon
  | eq
  deriving DecidableEq, Repr

def hexDigit (n : UInt8) : UInt8 := if n < 10 then byte '0' + n else byte 'A' + (n - 10)

/-- Printable ASCII that needs no escape. -/
def isPlain (b : UInt8) : Bool :=
  byte ' ' ≤ b && b ≤ byte '~' && b != byte '"' && b != byte '\\'

def printByte (b : UInt8) : List UInt8 :=
  if isPlain b then [b] else [byte '\\', byte 'x', hexDigit (b >>> 4), hexDigit (b &&& 0xF)]

def printNumber (n : ℕ) : List UInt8 :=
  if n < 10 then [byte '0' + n.toUInt8]
  else printNumber (n / 10) ++ [byte '0' + (n % 10).toUInt8]

namespace Piece

def spelling : Piece → List UInt8
  | .word s => s.map byte
  | .stringRef s => byte '$' :: s.map byte
  | .quoted bytes => byte '"' :: (bytes.flatMap printByte ++ [byte '"'])
  | .hexBlock body => byte '{' :: (body ++ [byte '}'])
  | .number n => printNumber n
  | .lbrace => [byte '{']
  | .rbrace => [byte '}']
  | .lparen => [byte '(']
  | .rparen => [byte ')']
  | .colon => [byte ':']
  | .eq => [byte '=']

def token (store : ℕ → ℕ) : Piece → Token
  | .word s => .ident s
  | .stringRef s => .stringRef s
  | .quoted bytes => .quotedString (bytes.map asChar)
  | .hexBlock body => .hexBlock body
  | .number n => .number (store n)
  | .lbrace => .lbrace
  | .rbrace => .rbrace
  | .lparen => .lparen
  | .rparen => .rparen
  | .colon => .colon
  | .eq => .eq

/-- A piece that another identifier byte would prolong. -/
def isWord : Piece → Bool
  | .word _ | .stringRef _ | .number _ => true
  | _ => false

end Piece

/-- Whitespace and closed comments. -/
inductive Blank : List UInt8 → Prop
  | nil : Blank []
  | space {c : UInt8} {rest : List UInt8} (hc : isSpace c) (h : Blank rest) : Blank (c :: rest)
  | line {text rest : List UInt8} (hend : byte '\n' ∉ text) (h : Blank rest) :
      Blank (byte '/' :: byte '/' :: (text ++ byte '\n' :: rest))
  | block {text rest : List UInt8} (hend : ¬ [byte '*', byte '/'] <:+: text) (h : Blank rest) :
      Blank (byte '/' :: byte '*' :: (text ++ byte '*' :: byte '/' :: rest))

/-- Pieces with blanks between them; a word ends before the next word. -/
inductive Layout : List Piece → List UInt8 → Prop
  | done {sep : List UInt8} (hsep : Blank sep) : Layout [] sep
  | piece {p : Piece} {ps : List Piece} {sep rest : List UInt8} (hsep : Blank sep)
      (hword : p.isWord → ∀ b ∈ rest.head?, isIdentByte b = false) (h : Layout ps rest) :
      Layout (p :: ps) (sep ++ (p.spelling ++ rest))

def isNameChar (c : Char) : Bool := c.isAlphanum || c == '_'

structure IsName (s : Text) : Prop where
  start : ∃ c ∈ s.head?, c.isAlpha ∨ c = '_'
  chars : ∀ c ∈ s, isNameChar c

def checkName (s : Text) : Bool :=
  s.head?.any (fun c => c.isAlpha || c == '_') && s.all isNameChar

theorem isName_of_checkName {s : Text} (h : checkName s) : IsName s := by
  simp only [checkName, Bool.and_eq_true, Option.any_eq_true, Bool.or_eq_true, beq_iff_eq,
    all_eq_true] at h
  obtain ⟨⟨c, hc, hstart⟩, hchars⟩ := h
  exact ⟨⟨c, hc, hstart⟩, hchars⟩

theorem nameChar_ascii {c : Char} (h : isNameChar c) : c.toNat < 128 := by
  have hchar : isNameChar c = ((decide ('A'.val ≤ c.val ∧ c.val ≤ 'Z'.val) ||
      (decide ('a'.val ≤ c.val) && decide (c.val ≤ 'z'.val)) ||
      (decide ('0'.val ≤ c.val) && decide (c.val ≤ '9'.val))) || c == '_') := rfl
  simp only [hchar, Bool.or_eq_true, Bool.and_eq_true, decide_eq_true_eq, beq_iff_eq,
    UInt32.le_iff_toNat_le] at h
  rcases h with h | rfl
  · have hval : c.toNat = c.val.toNat := rfl
    have hZ : 'Z'.val.toNat = 90 := rfl
    have hz : 'z'.val.toNat = 122 := rfl
    have h9 : '9'.val.toNat = 57 := rfl
    omega
  · decide

theorem ascii_byte {c : Char} (h : c.toNat < 128) :
    asChar (byte c) = c ∧ isIdentByte (byte c) = isNameChar c ∧
      isIdentStart (byte c) = (c.isAlpha || c == '_') := by
  have hall : ∀ n < 128, asChar (byte (Char.ofNat n)) = Char.ofNat n ∧
      isIdentByte (byte (Char.ofNat n)) = isNameChar (Char.ofNat n) ∧
      isIdentStart (byte (Char.ofNat n)) =
        ((Char.ofNat n).isAlpha || Char.ofNat n == '_') := by decide +kernel
  simpa using hall c.toNat h

theorem nameChar_byte {s : Text} (h : ∀ c ∈ s, isNameChar c) :
    (s.map byte).map asChar = s ∧ ∀ b ∈ s.map byte, isIdentByte b := by
  constructor
  · rw [map_map]
    refine (map_congr_left fun c hc => ?_).trans (map_id s)
    exact (ascii_byte (nameChar_ascii (h c hc))).1
  · intro b hb
    obtain ⟨c, hc, rfl⟩ := mem_map.mp hb
    rw [(ascii_byte (nameChar_ascii (h c hc))).2.1]
    exact h c hc

theorem span_run {p : UInt8 → Bool} {run rest : List UInt8} (hrun : ∀ b ∈ run, p b)
    (hrest : ∀ b ∈ rest.head?, p b = false) :
    (run ++ rest).takeWhile p = run ∧ (run ++ rest).dropWhile p = rest := by
  have hstop : rest.takeWhile p = [] ∧ rest.dropWhile p = rest := by
    cases rest with
    | nil => simp
    | cons b rest => simp [hrest b (by simp)]
  constructor
  · rw [takeWhile_append_of_pos hrun, hstop.1, append_nil]
  · rw [dropWhile_append_of_pos hrun, hstop.2]

theorem decimal_append (ds : List UInt8) (d : UInt8) :
    decimal (ds ++ [d]) = 10 * decimal ds + (d - byte '0').toNat := by
  simp [decimal]

theorem digit_facts {n : ℕ} (h : n < 10) :
    isDigit (byte '0' + n.toUInt8) ∧ (byte '0' + n.toUInt8 - byte '0').toNat = n := by
  have hall : ∀ n < 10, isDigit (byte '0' + n.toUInt8) ∧
      (byte '0' + n.toUInt8 - byte '0').toNat = n := by decide +kernel
  exact hall n h

theorem decimal_printNumber (n : ℕ) : decimal (printNumber n) = n := by
  fun_induction printNumber n with
  | case1 n h => simpa [decimal] using (digit_facts h).2
  | case2 n h ih =>
    rw [decimal_append, ih, (digit_facts (Nat.mod_lt n (by omega))).2]
    omega

theorem printNumber_digits (n : ℕ) : ∀ b ∈ printNumber n, isDigit b := by
  fun_induction printNumber n with
  | case1 n h => simpa using (digit_facts h).1
  | case2 n h ih =>
    intro b hb
    rcases mem_append.mp hb with hb | hb
    · exact ih b hb
    · rw [mem_singleton.mp hb]
      exact (digit_facts (Nat.mod_lt n (by omega))).1

theorem printNumber_ne_nil (n : ℕ) : printNumber n ≠ [] := by
  rw [printNumber]
  split <;> simp

theorem forall_byte {P : UInt8 → Prop} (h : ∀ n < 256, P n.toUInt8) (b : UInt8) : P b := by
  simpa using h b.toNat b.toNat_lt

/-- A printed nibble reads as itself, and as no wildcard, blank or comment. -/
theorem hexDigit_facts {n : UInt8} (h : n < 16) :
    hexVal (hexDigit n) = .ok n ∧ hexDigit n ≠ byte '?' ∧ isSpace (hexDigit n) = false ∧
      hexDigit n ≠ byte '/' := by
  revert n
  exact fun {n} => forall_byte (P := fun n => n < 16 → hexVal (hexDigit n) = .ok n ∧
    hexDigit n ≠ byte '?' ∧ isSpace (hexDigit n) = false ∧ hexDigit n ≠ byte '/')
    (by decide +kernel) n

theorem nibbles (b : UInt8) :
    b >>> 4 < 16 ∧ b &&& 0xF < 16 ∧ (b >>> 4) <<< 4 ||| (b &&& 0xF) = b := by
  revert b
  exact forall_byte (by decide +kernel)

theorem readQuoted_close (out : Text) (rest : List UInt8) :
    readQuoted out (byte '"' :: rest) = .ok (.quotedString out, rest) := by
  rw [readQuoted.eq_def]
  simp

theorem readQuoted_plain {b : UInt8} (hquote : b ≠ byte '"') (hslash : b ≠ byte '\\')
    (out : Text) (rest : List UInt8) :
    readQuoted out (b :: rest) = readQuoted (out ++ [asChar b]) rest := by
  rw [readQuoted.eq_def]
  simp [hquote, hslash]

theorem readQuoted_escape {hi lo h l : UInt8} (hhi : hexVal hi = .ok h) (hlo : hexVal lo = .ok l)
    (out : Text) (rest : List UInt8) :
    readQuoted out (byte '\\' :: byte 'x' :: hi :: lo :: rest) =
      readQuoted (out ++ [asChar (h <<< 4 ||| l)]) rest := by
  have hx : escaped (byte 'x') = none := by decide
  have hslash : byte '\\' ≠ byte '"' := by decide
  rw [readQuoted.eq_def]
  simp [hslash, hx, hhi, hlo]

theorem readQuoted_printByte (out : Text) (b : UInt8) (rest : List UInt8) :
    readQuoted out (printByte b ++ rest) = readQuoted (out ++ [asChar b]) rest := by
  by_cases hplain : isPlain b
  · have hquote : b ≠ byte '"' ∧ b ≠ byte '\\' := by
      simp only [isPlain, Bool.and_eq_true, bne_iff_ne] at hplain
      exact ⟨hplain.1.2, hplain.2⟩
    rw [printByte, if_pos hplain, singleton_append]
    exact readQuoted_plain hquote.1 hquote.2 out rest
  · obtain ⟨hhi, hlo, hjoin⟩ := nibbles b
    rw [printByte, if_neg hplain]
    have hread := readQuoted_escape (hexDigit_facts hhi).1 (hexDigit_facts hlo).1 out rest
    rw [hjoin] at hread
    exact hread

theorem readQuoted_printed (out : Text) (bytes rest : List UInt8) :
    readQuoted out (bytes.flatMap printByte ++ byte '"' :: rest) =
      .ok (.quotedString (out ++ bytes.map asChar), rest) := by
  induction bytes generalizing out with
  | nil => simp [readQuoted_close]
  | cons b bytes ih =>
    rw [flatMap_cons, append_assoc, readQuoted_printByte, ih, map_cons,
      append_assoc, singleton_append]

theorem readHexBlock_printed (read body rest : List UInt8)
    (hbody : byte '{' ∉ body ∧ byte '}' ∉ body) :
    readHexBlock 1 read (body ++ byte '}' :: rest) = .ok (.hexBlock (read ++ body), rest) := by
  induction body generalizing read with
  | nil =>
    have hne : byte '}' ≠ byte '{' := by decide
    simp [readHexBlock, hne]
  | cons b body ih =>
    obtain ⟨hopen, hclose⟩ := hbody
    rw [mem_cons, not_or] at hopen hclose
    rw [cons_append, readHexBlock, if_neg (Ne.symm hopen.1), if_neg (Ne.symm hclose.1),
      ih _ ⟨hopen.2, hclose.2⟩, append_assoc, singleton_append]

section Lexing

variable {store : ℕ → ℕ} {out : List Token} {rest : List UInt8} {text : List UInt8} {c : UInt8}

theorem tokenise_space (hc : isSpace c) :
    tokenise store out (c :: rest) = tokenise store out rest := by
  rw [tokenise]
  simp [hc]

theorem skipLineComment_text (hend : byte '\n' ∉ text) :
    skipLineComment (byte '/' :: (text ++ byte '\n' :: rest)) = byte '\n' :: rest := by
  have hrun : ∀ b ∈ byte '/' :: text, b != byte '\n' := by
    intro b hb
    rcases mem_cons.mp hb with rfl | hb
    · decide
    · exact bne_iff_ne.mpr fun heq => hend (heq ▸ hb)
  exact (span_run (p := (· != byte '\n')) hrun (by simp)).2

theorem tokenise_line (hend : byte '\n' ∉ text) :
    tokenise store out (byte '/' :: byte '/' :: (text ++ byte '\n' :: rest)) =
      tokenise store out rest := by
  have hslash : isSpace (byte '/') = false := by decide
  rw [tokenise]
  simp only [hslash, false_eq_true, if_false, head?_cons, and_self, if_true,
    skipLineComment_text hend]
  exact tokenise_space (by decide)

theorem skipBlockComment_text (hend : ¬ [byte '*', byte '/'] <:+: text) :
    skipBlockComment (text ++ byte '*' :: byte '/' :: rest) = rest := by
  induction text with
  | nil => simp [skipBlockComment]
  | cons a text ih =>
    have htail : ¬ [byte '*', byte '/'] <:+: text := fun h => hend (infix_cons h)
    have hstar : byte '*' ≠ byte '/' := by decide
    cases text with
    | nil =>
      rw [singleton_append, skipBlockComment, if_neg (fun h => hstar h.2)]
      exact ih htail
    | cons b text =>
      have hne : ¬ (a = byte '*' ∧ b = byte '/') := by
        rintro ⟨rfl, rfl⟩
        exact hend ⟨[], text, rfl⟩
      rw [cons_append, cons_append, skipBlockComment, if_neg hne]
      exact ih htail

theorem tokenise_block (hend : ¬ [byte '*', byte '/'] <:+: text) :
    tokenise store out (byte '/' :: byte '*' :: (text ++ byte '*' :: byte '/' :: rest)) =
      tokenise store out rest := by
  have hslash : isSpace (byte '/') = false := by decide
  have hstar : byte '*' ≠ byte '/' := by decide
  rw [tokenise]
  simp only [hslash, false_eq_true, if_false, List.head?_cons, Option.some.injEq, hstar,
    and_false, and_self, if_true, tail_cons, skipBlockComment_text hend]

theorem tokenise_blank {sep : List UInt8} (h : Blank sep) :
    tokenise store out (sep ++ rest) = tokenise store out rest := by
  induction h with
  | nil => rfl
  | space hc _ ih => exact (tokenise_space hc).trans ih
  | line hend _ ih =>
    rw [cons_append, cons_append, append_assoc, cons_append]
    exact (tokenise_line hend).trans ih
  | block hend _ ih =>
    rw [cons_append, cons_append, append_assoc, cons_append,
      cons_append]
    exact (tokenise_block hend).trans ih

theorem tokenise_punctuation {t : Token} (h : punctuation c = some t) :
    tokenise store out (c :: rest) = tokenise store (out ++ [t]) rest := by
  have hclass : ∀ c : UInt8, (punctuation c).isSome →
      isSpace c = false ∧ c ≠ byte '/' ∧ c ≠ byte '{' := forall_byte (by decide +kernel)
  obtain ⟨hspace, hslash, hbrace⟩ := hclass c (by rw [h]; rfl)
  rw [tokenise]
  simp [hspace, hslash, hbrace, h]

theorem tokenise_lbrace (hlast : out.getLast? ≠ some .eq) :
    tokenise store out (byte '{' :: rest) = tokenise store (out ++ [.lbrace]) rest := by
  have hspace : isSpace (byte '{') = false := by decide
  have hslash : byte '{' ≠ byte '/' := by decide
  rw [tokenise]
  simp [hspace, hslash, hlast]

theorem tokenise_hexBlock {body : List UInt8} (hbody : byte '{' ∉ body ∧ byte '}' ∉ body)
    (hlast : out.getLast? = some .eq) :
    tokenise store out (byte '{' :: (body ++ byte '}' :: rest)) =
      tokenise store (out ++ [.hexBlock body]) rest := by
  have hspace : isSpace (byte '{') = false := by decide
  have hslash : byte '{' ≠ byte '/' := by decide
  have hread := readHexBlock_printed [] body rest hbody
  rw [tokenise]
  simp only [hspace, false_eq_true, if_false, hslash, false_and, hlast, if_true]
  split
  · next e he => rw [hread] at he; cases he
  · next t rest' he =>
    rw [hread] at he
    cases he
    rfl

theorem tokenise_quoted (bytes : List UInt8) :
    tokenise store out (byte '"' :: (bytes.flatMap printByte ++ byte '"' :: rest)) =
      tokenise store (out ++ [.quotedString (bytes.map asChar)]) rest := by
  have hspace : isSpace (byte '"') = false := by decide
  have hslash : byte '"' ≠ byte '/' := by decide
  have hbrace : byte '"' ≠ byte '{' := by decide
  have hdollar : byte '"' ≠ byte '$' := by decide
  have hpunct : punctuation (byte '"') = none := by decide
  have hread := readQuoted_printed [] bytes rest
  rw [tokenise]
  simp only [hspace, false_eq_true, if_false, hslash, false_and, hbrace, hpunct, hdollar,
    if_true]
  split
  · next e he => rw [hread] at he; cases he
  · next t rest' he =>
    rw [hread] at he
    cases he
    rfl

theorem tokenise_stringRef {run : List UInt8} (hrun : ∀ b ∈ run, isIdentByte b)
    (hrest : ∀ b ∈ rest.head?, isIdentByte b = false) :
    tokenise store out (byte '$' :: (run ++ rest)) =
      tokenise store (out ++ [.stringRef (run.map asChar)]) rest := by
  have hspace : isSpace (byte '$') = false := by decide
  have hslash : byte '$' ≠ byte '/' := by decide
  have hbrace : byte '$' ≠ byte '{' := by decide
  have hpunct : punctuation (byte '$') = none := by decide
  obtain ⟨htake, hdrop⟩ := span_run hrun hrest
  rw [tokenise]
  simp only [hspace, false_eq_true, if_false, hslash, false_and, hbrace, hpunct, if_true,
    htake, hdrop]

theorem tokenise_number {d : UInt8} {run : List UInt8} (hrun : ∀ b ∈ d :: run, isDigit b)
    (hrest : ∀ b ∈ rest.head?, isIdentByte b = false) :
    tokenise store out (d :: (run ++ rest)) =
      tokenise store (out ++ [.number (store (decimal (d :: run)))]) rest := by
  have hclass : ∀ b : UInt8, isDigit b → isSpace b = false ∧ b ≠ byte '/' ∧ b ≠ byte '{' ∧
      punctuation b = none ∧ b ≠ byte '$' ∧ b ≠ byte '"' := forall_byte (by decide +kernel)
  obtain ⟨hspace, hslash, hbrace, hpunct, hdollar, hquote⟩ := hclass d (hrun d (by simp))
  have hstop : ∀ b ∈ rest.head?, isDigit b = false := by
    intro b hb
    have := hrest b hb
    simp only [isIdentByte, Bool.or_eq_false_iff] at this
    exact this.1
  obtain ⟨htake, hdrop⟩ := span_run (fun b hb => hrun b (mem_cons_of_mem d hb)) hstop
  rw [tokenise]
  simp only [hspace, false_eq_true, if_false, hslash, false_and, hbrace, hpunct, hdollar,
    hquote, hrun d (by simp), if_true, htake, hdrop]

theorem tokenise_word {run : List UInt8} (hstart : isIdentStart c)
    (hrun : ∀ b ∈ run, isIdentByte b) (hrest : ∀ b ∈ rest.head?, isIdentByte b = false) :
    tokenise store out (c :: (run ++ rest)) =
      tokenise store (out ++ [.ident ((c :: run).map asChar)]) rest := by
  have hclass : ∀ b : UInt8, isIdentStart b → isSpace b = false ∧ b ≠ byte '/' ∧ b ≠ byte '{' ∧
      punctuation b = none ∧ b ≠ byte '$' ∧ b ≠ byte '"' ∧ isDigit b = false :=
    forall_byte (by decide +kernel)
  obtain ⟨hspace, hslash, hbrace, hpunct, hdollar, hquote, hdigit⟩ := hclass c hstart
  obtain ⟨htake, hdrop⟩ := span_run hrun hrest
  rw [tokenise]
  simp only [hspace, false_eq_true, if_false, hslash, false_and, hbrace, hpunct, hdollar,
    hquote, hdigit, hstart, if_true, htake, hdrop]

/-- What a piece needs to be read: an identifier, or a brace where it means what it should. -/
def Piece.Reads (afterEq : Bool) : Piece → Prop
  | .word s => IsName s
  | .stringRef s => ∀ c ∈ s, isNameChar c
  | .hexBlock body => afterEq ∧ byte '{' ∉ body ∧ byte '}' ∉ body
  | .lbrace => ¬ afterEq
  | _ => True

def Reads : Bool → List Piece → Prop
  | _, [] => True
  | afterEq, p :: ps => p.Reads afterEq ∧ Reads (p == .eq) ps

theorem tokenise_piece {p : Piece} (hp : p.Reads (decide (out.getLast? = some .eq)))
    (hword : p.isWord → ∀ b ∈ rest.head?, isIdentByte b = false) :
    tokenise store out (p.spelling ++ rest) =
      tokenise store (out ++ [p.token store]) rest := by
  cases p with
  | word s =>
    obtain ⟨hback, hrun⟩ := nameChar_byte hp.chars
    obtain ⟨c, hc, hstart⟩ := hp.start
    obtain ⟨s, rfl⟩ : ∃ t, s = c :: t := by
      cases s with
      | nil => simp at hc
      | cons a t => exact ⟨t, by simpa using hc⟩
    have hbyte : isIdentStart (byte c) := by
      rw [(ascii_byte (nameChar_ascii (hp.chars c (by simp)))).2.2]
      simpa using hstart
    have hread := @tokenise_word store out _ _ _ hbyte
      (fun b hb => hrun b (mem_cons_of_mem _ hb)) (hword rfl)
    rw [← map_cons, hback] at hread
    exact hread
  | stringRef s =>
    obtain ⟨hback, hrun⟩ := nameChar_byte hp
    have hread := @tokenise_stringRef store out _ _ hrun (hword rfl)
    rw [hback] at hread
    exact hread
  | quoted bytes =>
    have hread := @tokenise_quoted store out rest bytes
    simpa [Piece.spelling, Piece.token] using hread
  | hexBlock body =>
    obtain ⟨hlast, hbody⟩ := hp
    have hread := @tokenise_hexBlock store out rest _ hbody (by simpa using hlast)
    simpa [Piece.spelling, Piece.token] using hread
  | number n =>
    obtain ⟨d, run, hprint⟩ := exists_cons_of_ne_nil (printNumber_ne_nil n)
    have hdigits := printNumber_digits n
    have hvalue := decimal_printNumber n
    rw [hprint] at hdigits hvalue
    have hread := @tokenise_number store out _ _ _ hdigits (hword rfl)
    rw [hvalue] at hread
    simpa [Piece.spelling, Piece.token, hprint] using hread
  | lbrace => exact tokenise_lbrace (by simpa [Piece.Reads] using hp)
  | rbrace => exact tokenise_punctuation (t := .rbrace) (by decide)
  | lparen => exact tokenise_punctuation (t := .lparen) (by decide)
  | rparen => exact tokenise_punctuation (t := .rparen) (by decide)
  | colon => exact tokenise_punctuation (t := .colon) (by decide)
  | eq => exact tokenise_punctuation (t := .eq) (by decide)

theorem tokenise_layout {ps : List Piece} {src : List UInt8} (h : Layout ps src)
    (hreads : Reads (decide (out.getLast? = some .eq)) ps) :
    tokenise store out src = .ok (out ++ ps.map (Piece.token store)) := by
  induction h generalizing out with
  | done hsep =>
    have hread := @tokenise_blank store out [] _ hsep
    rw [append_nil] at hread
    rw [hread, tokenise]
    simp
  | @piece p ps sep rest hsep hword _ ih =>
    obtain ⟨hp, hps⟩ := hreads
    have heq : decide ((out ++ [p.token store]).getLast? = some .eq) = (p == .eq) := by
      rw [getLast?_concat]
      cases p <;> simp [Piece.token]
    rw [tokenise_blank hsep, tokenise_piece hp hword, ih (by rw [heq]; exact hps)]
    simp

end Lexing

/-- Whitespace and line comments, with no brace that would end the pattern. -/
inductive HexBlank : List UInt8 → Prop
  | nil : HexBlank []
  | space {c : UInt8} {rest : List UInt8} (hc : isSpace c) (h : HexBlank rest) :
      HexBlank (c :: rest)
  | line {text rest : List UInt8} (hend : byte '\n' ∉ text)
      (hbrace : byte '{' ∉ text ∧ byte '}' ∉ text) (h : HexBlank rest) :
      HexBlank (byte '/' :: byte '/' :: (text ++ byte '\n' :: rest))

def HexByte.spelling : HexByte → List UInt8
  | .exact b => [hexDigit (b >>> 4), hexDigit (b &&& 0xF)]
  | .wild => [byte '?', byte '?']
  | .highFixed h => [hexDigit h, byte '?']
  | .lowFixed l => [byte '?', hexDigit l]

def HexByte.IsNibbled : HexByte → Prop
  | .highFixed h => h < 16
  | .lowFixed l => l < 16
  | _ => True

/-- The body of a hex block that prints a pattern. -/
inductive HexBody : List HexByte → List UInt8 → Prop
  | done {sep : List UInt8} (hsep : HexBlank sep) : HexBody [] sep
  | byte {h : HexByte} {hs : List HexByte} {sep rest : List UInt8} (hsep : HexBlank sep)
      (hrest : HexBody hs rest) : HexBody (h :: hs) (sep ++ (h.spelling ++ rest))

theorem parseHexBytes_blank {sep rest : List UInt8} (h : HexBlank sep) :
    parseHexBytes (sep ++ rest) = parseHexBytes rest := by
  have hspace : ∀ {c : UInt8} (rest : List UInt8), isSpace c →
      parseHexBytes (c :: rest) = parseHexBytes rest := by
    intro c rest hc
    rw [parseHexBytes.eq_def]
    simp [hc]
  induction h with
  | nil => rfl
  | space hc _ ih => exact (hspace _ hc).trans ih
  | @line text rest' hend _ _ ih =>
    have hslash : isSpace (YaraLite.byte '/') = false := by decide
    rw [cons_append, cons_append, append_assoc, cons_append,
      parseHexBytes.eq_def]
    simp only [hslash, false_eq_true, if_false, head?_cons, and_self, if_true,
      skipLineComment_text hend]
    exact (hspace _ (by decide)).trans ih

theorem parseHexBytes_pair {hi lo : UInt8} {h : HexByte} (hspace : isSpace hi = false)
    (hslash : hi ≠ byte '/') (hread : parseHexByte hi lo = .ok h) (rest : List UInt8) :
    parseHexBytes (hi :: lo :: rest) = (parseHexBytes rest).map (h :: ·) := by
  rw [parseHexBytes.eq_def]
  simp only [hspace, false_eq_true, if_false, hslash, false_and, hread]
  cases parseHexBytes rest <;> rfl

theorem parseHexBytes_byte (h : HexByte) (hn : h.IsNibbled) (rest : List UInt8) :
    parseHexBytes (h.spelling ++ rest) = (parseHexBytes rest).map (h :: ·) := by
  have hwild : isSpace (byte '?') = false ∧ byte '?' ≠ byte '/' := by decide
  cases h with
  | exact b =>
    obtain ⟨hhi, hlo, hjoin⟩ := nibbles b
    obtain ⟨hval, hne, hspace, hslash⟩ := hexDigit_facts hhi
    obtain ⟨hval', hne', -, -⟩ := hexDigit_facts hlo
    refine parseHexBytes_pair hspace hslash ?_ rest
    simp only [parseHexByte, hne, hne', false_and, if_false, hval, hval']
    exact congrArg (fun b => Except.ok (HexByte.exact b)) hjoin
  | wild => exact parseHexBytes_pair hwild.1 hwild.2 (by simp [parseHexByte]) rest
  | highFixed n =>
    obtain ⟨hval, hne, hspace, hslash⟩ := hexDigit_facts hn
    refine parseHexBytes_pair hspace hslash ?_ rest
    simp only [parseHexByte, hne, false_and, if_false, if_true, hval]
    rfl
  | lowFixed n =>
    obtain ⟨hval, hne, -, -⟩ := hexDigit_facts hn
    refine parseHexBytes_pair hwild.1 hwild.2 ?_ rest
    simp only [parseHexByte, hne, and_false, if_false, if_true, hval]
    rfl

variable {hs : List HexByte}

theorem parseHexBytes_body {body : List UInt8} (h : HexBody hs body)
    (hn : ∀ b ∈ hs, b.IsNibbled) : parseHexBytes body = .ok hs := by
  induction h with
  | done hsep =>
    have hread := @parseHexBytes_blank _ [] hsep
    rw [append_nil] at hread
    rw [hread, parseHexBytes]
  | @byte h hs sep rest hsep _ ih =>
    rw [parseHexBytes_blank hsep, parseHexBytes_byte h (hn h (by simp)),
      ih fun b hb => hn b (mem_cons_of_mem h hb)]
    rfl

theorem parseHexPattern_body {body : List UInt8} (h : HexBody hs body)
    (hn : ∀ b ∈ hs, b.IsNibbled) (hne : hs ≠ []) : parseHexPattern body = .ok hs := by
  simp only [parseHexPattern, parseHexBytes_body h hn]
  exact if_neg hne

theorem hexBlank_braces {sep : List UInt8} (h : HexBlank sep) :
    byte '{' ∉ sep ∧ byte '}' ∉ sep := by
  induction h with
  | nil => simp
  | @space c rest hc _ ih =>
    have hne : ∀ c : UInt8, isSpace c → c ≠ byte '{' ∧ c ≠ byte '}' :=
      forall_byte (by decide +kernel)
    obtain ⟨hopen, hclose⟩ := hne c hc
    exact ⟨by simp [Ne.symm hopen, ih.1], by simp [Ne.symm hclose, ih.2]⟩
  | line _ hbrace _ ih =>
    have hne : byte '{' ≠ byte '/' ∧ byte '}' ≠ byte '/' ∧ byte '{' ≠ byte '\n' ∧
      byte '}' ≠ byte '\n' := by decide
    simp [hne, hbrace, ih]

theorem hexSpelling_braces (h : HexByte) (hn : h.IsNibbled) :
    byte '{' ∉ h.spelling ∧ byte '}' ∉ h.spelling := by
  have hdigit : ∀ {n : UInt8}, n < 16 → hexDigit n ≠ byte '{' ∧ hexDigit n ≠ byte '}' :=
    fun {n} => forall_byte (P := fun n => n < 16 → hexDigit n ≠ byte '{' ∧ hexDigit n ≠ byte '}')
      (by decide +kernel) n
  have hwild : byte '{' ≠ byte '?' ∧ byte '}' ≠ byte '?' := by decide
  cases h with
  | exact b =>
    obtain ⟨hhi, hlo, -⟩ := nibbles b
    simp [HexByte.spelling, Ne.symm (hdigit hhi).1, Ne.symm (hdigit hhi).2,
      Ne.symm (hdigit hlo).1, Ne.symm (hdigit hlo).2]
  | wild => simp [HexByte.spelling, hwild]
  | highFixed n => simp [HexByte.spelling, hwild, Ne.symm (hdigit hn).1, Ne.symm (hdigit hn).2]
  | lowFixed n => simp [HexByte.spelling, hwild, Ne.symm (hdigit hn).1, Ne.symm (hdigit hn).2]

theorem hexBody_braces {body : List UInt8} (h : HexBody hs body)
    (hn : ∀ b ∈ hs, b.IsNibbled) : byte '{' ∉ body ∧ byte '}' ∉ body := by
  induction h with
  | done hsep => exact hexBlank_braces hsep
  | @byte h hs sep rest hsep _ ih =>
    have hblank := hexBlank_braces hsep
    have hspell := hexSpelling_braces h (hn h (by simp))
    have hrest := ih fun b hb => hn b (mem_cons_of_mem h hb)
    simp [hblank, hspell, hrest]

end YaraLite
