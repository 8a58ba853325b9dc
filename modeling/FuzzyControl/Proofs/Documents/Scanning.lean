import FuzzyControl.Proofs.Documents.Numerals

/-! # Words and quoted texts are scanned back

A word is scanned as one token wherever a mark or nothing more follows it, and a quoted text wherever
it stands. A control character without a letter of its own comes back as a unit, which is the one
change that scanning makes to pieces (`Piece.reread`); what they say is the same
(`text?_reread_ofText`).
-/
namespace FuzzyControl.Json

set_option autoImplicit false

open Token

def isWordChar (c : Char) : Bool := !isSpace c && c != '"' && (mark? c).isNone

theorem isWordChar_iff {c : Char} :
    isWordChar c = true ↔ isSpace c = false ∧ c ≠ '"' ∧ mark? c = none := by
  simp [isWordChar, and_assoc]

/-- Nothing follows, or a mark does. -/
def Ends (rest : List Char) : Prop := ∀ c ∈ rest.head?, (mark? c).isSome = true

theorem ends_nil : Ends [] := by
  rintro c ⟨⟩

theorem ends_cons {c : Char} (h : (mark? c).isSome = true) (rest : List Char) : Ends (c :: rest) := by
  rintro c ⟨⟩
  exact h

theorem not_isSpace_of_mark? {c : Char} {m : Token} (h : mark? c = some m) : isSpace c = false := by
  rw [Bool.eq_false_iff]
  intro hSpace
  simp only [isSpace, Bool.or_eq_true, beq_iff_eq] at hSpace
  obtain ((rfl | rfl) | rfl) | rfl := hSpace <;> cases h

theorem ne_quote_of_mark? {c : Char} {m : Token} (h : mark? c = some m) : c ≠ '"' := by
  rintro rfl
  cases h

theorem scan_between_mark {c : Char} {m : Token} (h : mark? c = some m) (rest : List Char) :
    scan .between (c :: rest) = m :: scan .between rest := by
  simp only [scan, not_isSpace_of_mark? h, ne_quote_of_mark? h, h, Bool.false_eq_true, if_false]

theorem scan_word_of_ends {rest : List Char} (h : Ends rest) (read : List Char) :
    scan (.word read) rest = ofWord read.reverse :: scan .between rest := by
  cases rest with
  | nil => rfl
  | cons c rest =>
    obtain ⟨m, hMark⟩ := Option.isSome_iff_exists.mp (h c rfl)
    rw [scan_between_mark hMark]
    simp only [scan, not_isSpace_of_mark? hMark, ne_quote_of_mark? hMark, hMark,
      Bool.false_eq_true, if_false]

theorem scan_word_append {cs : List Char} (hcs : cs.all isWordChar = true) {rest : List Char}
    (hRest : Ends rest) (read : List Char) :
    scan (.word read) (cs ++ rest) = ofWord (read.reverse ++ cs) :: scan .between rest := by
  induction cs generalizing read with
  | nil => rw [List.nil_append, List.append_nil, scan_word_of_ends hRest]
  | cons c cs ih =>
    obtain ⟨hc, hcs⟩ := Bool.and_eq_true_iff.mp (List.all_cons ▸ hcs)
    obtain ⟨hSpace, hQuote, hMark⟩ := isWordChar_iff.mp hc
    have hNext : scan (.word read) (c :: (cs ++ rest)) = scan (.word (c :: read)) (cs ++ rest) := by
      simp only [scan, hSpace, hQuote, hMark, Bool.false_eq_true, if_false]
    rw [List.cons_append, hNext, ih hcs, List.reverse_cons, List.append_assoc, List.singleton_append]

theorem scan_between_word {cs : List Char} (hNil : cs ≠ []) (hcs : cs.all isWordChar = true)
    {rest : List Char} (hRest : Ends rest) :
    scan .between (cs ++ rest) = ofWord cs :: scan .between rest := by
  cases cs with
  | nil => exact absurd rfl hNil
  | cons c cs =>
    obtain ⟨hc, hcs⟩ := Bool.and_eq_true_iff.mp (List.all_cons ▸ hcs)
    obtain ⟨hSpace, hQuote, hMark⟩ := isWordChar_iff.mp hc
    have hNext : scan .between (c :: (cs ++ rest)) = scan (.word [c]) (cs ++ rest) := by
      simp only [scan, hSpace, hQuote, hMark, Bool.false_eq_true, if_false]
    rw [List.cons_append, hNext, scan_word_append hcs hRest, List.reverse_singleton,
      List.singleton_append]

/-- The characters of a plain numeral make up a word. -/
theorem all_isWordChar_chars {n : Decimal.Numeral} (h : n.Plain) :
    n.chars.all isWordChar = true := by
  have hSigns : ['-', '+', '.', 'e'].all isWordChar = true := by decide
  have hDigits : ∀ d < 10, isWordChar (Decimal.digitChar d) = true := by decide
  refine List.all_eq_true.mpr fun c hc => ?_
  obtain hSign | ⟨d, hd, rfl⟩ := h.mem_chars hc
  · exact List.all_eq_true.mp hSigns c hSign
  · exact hDigits d hd

theorem scan_between_numeral {n : Decimal.Numeral} (h : n.Plain) {rest : List Char}
    (hRest : Ends rest) : scan .between (n.chars ++ rest) = number n :: scan .between rest := by
  rw [scan_between_word h.chars_ne_nil (all_isWordChar_chars h) hRest, h.ofWord_chars]

/-- The piece that the characters of a piece are read as. -/
def Piece.reread : Piece → Piece
  | .char c =>
    match Quoted.escapes.find? fun e => e.1 == c with
    | some _ => .char c
    | none => if c.toNat < 32 then .unit c.toNat else .char c
  | .unit n => .unit n

/-- Units are sixteen bits wide. -/
def Piece.Plain : Piece → Prop
  | .char _ => True
  | .unit n => n < 65536

theorem hexValue?_hexDigit {n : Nat} (h : n < 16) : hexValue? (Quoted.hexDigit n) = some n := by
  have hAll : ∀ n < 16, hexValue? (Quoted.hexDigit n) = some n := by decide
  exact hAll n h

theorem scan_hexDigits {n : Nat} (h : n < 65536) (read : List Piece) (rest : List Char) :
    scan (.hex read 0 3) (Quoted.hexDigits n ++ rest) = scan (.quoted (.unit n :: read)) rest := by
  have hDigit (k : Nat) : hexValue? (Quoted.hexDigit (k % 16)) = some (k % 16) :=
    hexValue?_hexDigit (Nat.mod_lt k (by decide))
  have hValue : 16 * (16 * (16 * (16 * 0 + n / 4096 % 16) + n / 256 % 16) + n / 16 % 16) +
      n % 16 = n := by omega
  simp only [Quoted.hexDigits, List.cons_append, List.nil_append, scan, hDigit, hValue]

theorem scan_unit {n : Nat} (h : n < 65536) (read : List Piece) (rest : List Char) :
    scan (.quoted read) ('\\' :: 'u' :: Quoted.hexDigits n ++ rest) =
      scan (.quoted (.unit n :: read)) rest := by
  rw [List.cons_append, List.cons_append, ← scan_hexDigits h]
  rfl

theorem scan_escape {e : Char × Char} (h : e ∈ Quoted.escapes) (read : List Piece)
    (rest : List Char) :
    scan (.quoted read) ('\\' :: e.2 :: rest) = scan (.quoted (.char e.1 :: read)) rest := by
  have hAll : ∀ e ∈ Quoted.escapes, e.2 ≠ 'u' ∧ unescape? e.2 = some e.1 := by decide
  obtain ⟨hUnit, hLetter⟩ := hAll e h
  have hBackslash :
      scan (.quoted read) ('\\' :: e.2 :: rest) = scan (.escape read) (e.2 :: rest) := rfl
  rw [hBackslash]
  simp only [scan, hUnit, hLetter, if_false]

theorem scan_renderPiece {p : Piece} (h : p.Plain) (read : List Piece) (rest : List Char) :
    scan (.quoted read) (Quoted.renderPiece p ++ rest) = scan (.quoted (p.reread :: read)) rest := by
  cases p with
  | unit n => exact scan_unit h read rest
  | char c =>
    rw [Quoted.renderPiece, Piece.reread, Quoted.renderChar]
    cases hFind : Quoted.escapes.find? fun e => e.1 == c with
    | some e =>
      obtain rfl : e.1 = c := by simpa using List.find?_some hFind
      exact scan_escape (List.mem_of_find?_eq_some hFind) read rest
    | none =>
      dsimp only
      split
      · exact scan_unit (by omega) read rest
      · -- The quote and the backslash have letters of their own, so the character is neither.
        rename_i hControl
        rw [List.find?_eq_none] at hFind
        have hQuote : c ≠ '"' := by
          rintro rfl
          exact hFind ('"', '"') (by decide) (by decide)
        have hBackslash : c ≠ '\\' := by
          rintro rfl
          exact hFind ('\\', '\\') (by decide) (by decide)
        simp only [List.singleton_append, scan, hQuote, hBackslash, hControl, if_false]

theorem scan_flatMap_renderPiece {q : Quoted} (h : ∀ p ∈ q, p.Plain) (read : List Piece)
    (rest : List Char) :
    scan (.quoted read) (q.flatMap Quoted.renderPiece ++ rest) =
      scan (.quoted ((q.map Piece.reread).reverse ++ read)) rest := by
  induction q generalizing read with
  | nil => rfl
  | cons p q ih =>
    obtain ⟨hp, hq⟩ := List.forall_mem_cons.mp h
    rw [List.flatMap_cons, List.append_assoc, scan_renderPiece hp, ih hq, List.map_cons,
      List.reverse_cons, List.append_assoc, List.singleton_append]

namespace Quoted

def reread (q : Quoted) : Quoted := q.map Piece.reread

def Plain (q : Quoted) : Prop := ∀ p ∈ q, p.Plain

theorem plain_ofText (s : String) : (ofText s).Plain := by
  rintro p hp
  obtain ⟨c, -, rfl⟩ := List.mem_map.mp hp
  trivial

theorem Plain.scan_render {q : Quoted} (h : q.Plain) (rest : List Char) :
    scan .between (q.render ++ rest) = text q.reread :: scan .between rest := by
  have hOpen : scan .between (q.render ++ rest) =
      scan (.quoted []) (q.flatMap renderPiece ++ '"' :: rest) := by
    rw [render, List.cons_append, List.cons_append, List.append_assoc]
    rfl
  have hClose (read : List Piece) :
      scan (.quoted read) ('"' :: rest) = text read.reverse :: scan .between rest := rfl
  rw [hOpen, scan_flatMap_renderPiece h, hClose, List.append_nil, List.reverse_reverse, reread]

theorem chars?_unit_cons {n : Nat} (h : n < 0xD800) (q : Quoted) :
    chars? (.unit n :: q) = q.chars?.map (Char.ofNat n :: ·) := by
  have hHigh : isHighUnit n = false := by simp [isHighUnit]; omega
  have hLow : isLowUnit n = false := by simp [isLowUnit]; omega
  cases q with
  | nil => simp [chars?, hHigh, hLow]
  | cons p q =>
    cases p <;> simp [chars?, hHigh, hLow]

theorem chars?_reread_cons (c : Char) (q : Quoted) :
    chars? (reread (.char c :: q)) = (chars? (reread q)).map (c :: ·) := by
  rw [reread, List.map_cons, Piece.reread]
  cases escapes.find? fun e => e.1 == c with
  | some e => rfl
  | none =>
    dsimp only
    split
    · rw [chars?_unit_cons (by omega), Char.ofNat_toNat, reread]
    · rfl

/-- A text says the same when it is read back. -/
theorem text?_reread_ofText (s : String) : (ofText s).reread.text? = some s := by
  have hChars (cs : List Char) : chars? (reread (cs.map .char)) = some cs := by
    induction cs with
    | nil => rfl
    | cons c cs ih => rw [List.map_cons, chars?_reread_cons, ih, Option.map_some]
  rw [text?, ofText, hChars, Option.map_some, String.ofList_toList]

end Quoted

end FuzzyControl.Json
