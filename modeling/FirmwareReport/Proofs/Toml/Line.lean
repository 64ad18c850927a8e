import FirmwareReport.Config.Text
import FirmwareReport.Proofs.Toml.Value

/-!
# Written lines

A configuration is written line by line: an assignment of a value to a name, or the header of an
element of a list. A line is read back as what it was written for, and reading goes on behind it
(`FirmwareReport.Toml.hasLines_line`,
`FirmwareReport.Toml.hasLines_elementHeader`), and so are lines one behind the other
(`FirmwareReport.Toml.HasLines.append`).
-/

namespace FirmwareReport.Toml

open Text (StopsAt)

/-! ### Names -/

/-- A name that needs no quotes. -/
def IsBareName (name : List Char) : Prop :=
  name ≠ [] ∧ name.all isBareKeyChar = true

instance (name : List Char) : Decidable (IsBareName name) :=
  inferInstanceAs (Decidable (_ ∧ _))

theorem IsBareName.exists_eq_cons {name : List Char} (h : IsBareName name) :
    ∃ c t, name = c :: t ∧ (c :: t).all isBareKeyChar = true := by
  obtain ⟨c, t, rfl⟩ := List.exists_cons_of_ne_nil h.1
  exact ⟨c, t, rfl, h.2⟩

/-- A character of a name is no quote, bracket or the like. -/
theorem ne_of_isBareKeyChar {c d : Char} (h : isBareKeyChar c = true)
    (hd : isBareKeyChar d = false) : c ≠ d := by
  rintro rfl
  simp [h] at hd

theorem isLineBlank_of_isBareKeyChar {c : Char} (h : isBareKeyChar c = true) :
    isLineBlank c = false := by
  have hblank := ne_of_isBareKeyChar (d := ' ') h rfl
  have htab := ne_of_isBareKeyChar (d := '\t') h rfl
  simp [isLineBlank, hblank, htab]

theorem skipLineBlanks_cons {c : Char} (h : isLineBlank c = false) (s : List Char) :
    skipLineBlanks (c :: s) = c :: s := by
  simp [skipLineBlanks, h]

section Key

variable {name rest : List Char}

theorem keyPart?_append (hname : IsBareName name) (hrest : StopsAt isBareKeyChar rest) :
    keyPart? (name ++ rest) = some (String.ofList name, rest) := by
  obtain ⟨c, t, rfl, hall⟩ := hname.exists_eq_cons
  obtain ⟨hpart, hbehind⟩ := Text.span_iff.2 ⟨rfl, hall, hrest⟩
  have hc : isBareKeyChar c = true := by simp_all
  rw [List.cons_append] at hpart hbehind ⊢
  unfold keyPart?
  split
  · simp_all [isBareKeyChar]
  · simp_all [isBareKeyChar]
  · simp only [hpart, hbehind]
    rfl

/-- **A name as a key**, up to what follows it. -/
theorem key?_append (hname : IsBareName name) (hstops : StopsAt isBareKeyChar rest) {c : Char}
    {t : List Char} (hrest : skipLineBlanks rest = c :: t) (hc : c ≠ '.') :
    key? (name ++ rest) = some ([], String.ofList name, c :: t) := by
  have hpart := keyPart?_append hname hstops
  obtain ⟨d, name', rfl, hall⟩ := hname.exists_eq_cons
  have hd : isBareKeyChar d = true := by simp_all
  have hparts : keyParts? (d :: name' ++ rest) = some ([String.ofList (d :: name')], c :: t) := by
    rw [keyParts?]
    rw [List.cons_append] at hpart ⊢
    rw [skipLineBlanks_cons (isLineBlank_of_isBareKeyChar hd), hpart]
    dsimp only
    rw [hrest]
    split
    · simp_all
    · simp
  rw [key?, hparts]
  rfl

end Key

/-! ### Values on a line -/

/-- **A text is written for an item**: it is read as that item at the end of a line. -/
structure Writes (text : List Char) (item : Item) : Prop where
  /-- It does not begin with a blank. -/
  head : ∃ c t, text = c :: t ∧ isLineBlank c = false
  read : ∀ rest, value? (nestingLimit - 1) (text ++ '\n' :: rest) = some (item, '\n' :: rest)

section Values

open Config

theorem writes_toDigits {n : Nat} (hn : n < signedLimit) :
    Writes (Nat.toDigits 10 n) (.scalar (.integer n)) where
  head := by
    obtain ⟨c, digits, hword⟩ :=
      List.exists_cons_of_ne_nil (Nat.toDigits_ne_nil (n := n) (b := 10))
    have hc : c.isDigit = true := Nat.isDigit_of_mem_toDigits (b := 10) (n := n) (by decide)
      (by decide) (hword ▸ List.mem_cons_self)
    exact ⟨c, digits, hword, isLineBlank_of_isBareKeyChar
      (by simp [isBareKeyChar, Char.isAlphanum, hc])⟩
  read rest := value?_toDigits _ hn (.newline rest)

theorem writes_quoted (s : String) : Writes (quoted s) (.text s) where
  head := by
    obtain ⟨c, t, hquote, -, hblank⟩ := exists_quote_ne s.toList
    exact ⟨c, t, hquote, hblank⟩
  read rest := by rw [quoted, value?_quote _ _ (.newline rest), String.ofList_toList]

/-- A list of strings, on one line or on several. -/
theorem writes_quotedList (list : List String) :
    Writes (quotedList list) (.array (list.map .text)) where
  head := by
    rcases list with _ | ⟨s, _ | ⟨s', list⟩⟩ <;> exact ⟨'[', _, rfl, by decide⟩
  read rest := by
    have hlevels : nestingLimit - 1 = 78 + 1 := rfl
    rcases list with _ | ⟨s, _ | ⟨s', list⟩⟩
    · exact value?_bracket 78 _ (arrayItems?_nil 78 ('\n' :: rest))
    · have htext : quotedList [s] ++ '\n' :: rest =
          '[' :: (quote s.toList ++ ']' :: '\n' :: rest) := by
        simp [quotedList, quoted]
      rw [htext, hlevels, value?_bracket 78 _ (arrayItems?_one 78 ('\n' :: rest) s)]
      rfl
    · have htext : quotedList (s :: s' :: list) ++ '\n' :: rest =
          '[' :: '\n' :: ((s :: s' :: list).flatMap (fun s =>
            [' ', ' ', ' ', ' '] ++ quote s.toList ++ [',', '\n']) ++ ']' :: '\n' :: rest) := by
        simp [quotedList, quoted]
      rw [htext, hlevels,
        value?_bracket 78 _ (arrayItems?_lines 78 ('\n' :: rest) (s :: s' :: list))]

end Values

/-! ### Lines -/

theorem lineEnd?_newline (rest : List Char) : lineEnd? ('\n' :: rest) = some rest := rfl

theorem skipTrivia_append {name : List Char} (hname : IsBareName name) (rest : List Char) :
    skipTrivia false (name ++ rest) = name ++ rest := by
  obtain ⟨c, t, rfl, hall⟩ := hname.exists_eq_cons
  have hc : isBareKeyChar c = true := by simp_all
  exact skipTrivia_cons ⟨ne_of_isBareKeyChar hc rfl, ne_of_isBareKeyChar hc rfl,
    isLineBlank_of_isBareKeyChar hc, ne_of_isBareKeyChar hc rfl⟩ _

theorem lines?_nil : lines? [] = some [] := by
  rw [lines?, skipTrivia]

/-- One line, and then the others. -/
theorem lines?_cons {s s' rest : List Char} {c : Char} {line : Line}
    (hs : skipTrivia false s = c :: s')
    (hline : (if c = '[' then headerLine? (c :: s') else assignmentLine? (c :: s')) =
      some (line, rest)) (hlength : rest.length < s.length) :
    lines? s = (lines? rest).map (line :: ·) := by
  rw [lines?, hs]
  dsimp only
  rw [hline]
  exact if_pos hlength

/-- **A text of so many lines**: they are read, and reading goes on behind the text. -/
def HasLines (text : List Char) (lines : List Line) : Prop :=
  ∀ rest, lines? (text ++ rest) = (lines? rest).map (lines ++ ·)

namespace HasLines

variable {text text' : List Char} {lines lines' : List Line}

theorem nil : HasLines [] [] := by
  intro rest
  simp

theorem append (h : HasLines text lines) (h' : HasLines text' lines') :
    HasLines (text ++ text') (lines ++ lines') := by
  intro rest
  rw [List.append_assoc, h, h', Option.map_map]
  simp [Function.comp_def]

theorem flatMap {α : Type} {write : α → List Char} {linesOf : α → List Line} {list : List α}
    (h : ∀ a ∈ list, HasLines (write a) (linesOf a)) :
    HasLines (list.flatMap write) (list.flatMap linesOf) := by
  induction list with
  | nil => exact nil
  | cons a list ih =>
    obtain ⟨ha, hlist⟩ := List.forall_mem_cons.1 h
    exact ha.append (ih hlist)

/-- All lines of a text. -/
theorem lines?_eq (h : HasLines text lines) : lines? text = some lines := by
  have hall := h []
  rw [List.append_nil, lines?_nil] at hall
  simpa using hall

end HasLines

/-- **A name with its value** is an assignment. -/
theorem hasLines_line (name : String) (hname : IsBareName name.toList) {text : List Char}
    {item : Item} (htext : Writes text item) :
    HasLines (Config.line name text) [.assignment ⟨[], name, item⟩] := by
  intro rest
  have hline : Config.line name text ++ rest =
      name.toList ++ ' ' :: '=' :: ' ' :: (text ++ '\n' :: rest) := by
    simp [Config.line]
  have hkey : key? (name.toList ++ ' ' :: '=' :: ' ' :: (text ++ '\n' :: rest)) =
      some ([], name, '=' :: ' ' :: (text ++ '\n' :: rest)) := by
    rw [key?_append hname (Text.stopsAt_cons.2 rfl) rfl (by decide), String.ofList_toList]
  have hskip := skipTrivia_append hname (' ' :: '=' :: ' ' :: (text ++ '\n' :: rest))
  have hread : assignmentLine? (name.toList ++ ' ' :: '=' :: ' ' :: (text ++ '\n' :: rest)) =
      some (.assignment ⟨[], name, item⟩, rest) := by
    obtain ⟨c, t, rfl, hblank⟩ := htext.head
    have hvalue : skipLineBlanks (' ' :: (c :: t ++ '\n' :: rest)) = c :: t ++ '\n' :: rest :=
      skipLineBlanks_cons hblank _
    rw [assignmentLine?, hkey]
    simp only [Option.bind_eq_bind, Option.bind_some, hvalue, htext.read, lineEnd?_newline]
    rfl
  obtain ⟨c, t, hc, hall⟩ := hname.exists_eq_cons
  have hbracket : c ≠ '[' := ne_of_isBareKeyChar (by simp_all) rfl
  rw [hc, List.cons_append] at hskip hread
  rw [hline, hc, List.cons_append, lines?_cons hskip (by rw [if_neg hbracket, hread])
    (by simp only [List.length_cons, List.length_append]; omega)]
  rfl

/-- **The header of an element** of a list. -/
theorem hasLines_elementHeader (name : String) (hname : IsBareName name.toList) :
    HasLines (Config.elementHeader name) [.header true [] name] := by
  intro rest
  have hheader : Config.elementHeader name ++ rest =
      '\n' :: '[' :: '[' :: (name.toList ++ ']' :: ']' :: '\n' :: rest) := by
    simp [Config.elementHeader]
  have hkey : key? (name.toList ++ ']' :: ']' :: '\n' :: rest) =
      some ([], name, ']' :: ']' :: '\n' :: rest) := by
    rw [key?_append hname (Text.stopsAt_cons.2 rfl) rfl (by decide), String.ofList_toList]
  have hread : headerLine? ('[' :: '[' :: (name.toList ++ ']' :: ']' :: '\n' :: rest)) =
      some (.header true [] name, rest) := by
    rw [headerLine?, hkey]
    rfl
  rw [hheader, lines?_cons ((skipTrivia_newline _).trans (skipTrivia_cons (by decide) _))
    (by rw [if_pos rfl, hread]) (by simp only [List.length_cons, List.length_append]; omega)]
  rfl

end FirmwareReport.Toml
