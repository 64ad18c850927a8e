import FirmwareReport.Proofs.Json.Scalar

/-!
# Every written value is read back

`FirmwareReport.Json.toText` writes texts that are JSON, and the reader takes each of them for the
value it was written from, `FirmwareReport.Json.datum` (`FirmwareReport.Json.read?_toText`).

Lists and objects are written alike, as items between two brackets on lines of their own
(`FirmwareReport.Json.itemLines`), so they are followed once, for any kind of item that is read up
to what cannot belong to it (`FirmwareReport.Datum.IsRead`). The main proof goes through a value
with its items first (`FirmwareReport.Json.inductItems`); no value has as many levels as it has
characters.
-/

namespace FirmwareReport

open Text (StopsAt)

/-! ### The layout of lists and objects -/

namespace Json

/-- The lines of one item or more behind an opening bracket, and what follows the closing one. -/
def itemLines {α : Type} (closing : Char) (level : Nat) (text : α → List Char) (first : α)
    (more : List α) (rest : List Char) : List Char :=
  lineBreak (level + 1) ++ (text first ++
    (more.flatMap (fun a => ',' :: (lineBreak (level + 1) ++ text a)) ++
      (lineBreak level ++ closing :: rest)))

/-- The line of a member, without its indentation. -/
def writeMember (level : Nat) (member : String × Json) : List Char :=
  quote member.1 ++ ':' :: ' ' :: member.2.write level

theorem writeItems_eq_flatMap (level : Nat) (items : List Json) :
    writeItems level items =
      items.flatMap fun item => ',' :: (lineBreak level ++ item.write level) := by
  induction items with
  | nil => rfl
  | cons item items ih => simp [writeItems, ih]

theorem writeMembers_eq_flatMap (level : Nat) (members : List (String × Json)) :
    writeMembers level members =
      members.flatMap fun member => ',' :: (lineBreak level ++ writeMember level member) := by
  induction members with
  | nil => rfl
  | cons member members ih => simp [writeMembers, writeMember, ih]

section

variable (level : Nat) (rest : List Char)

theorem write_list (first : Json) (more : List Json) :
    (Json.list (first :: more)).write level ++ rest =
      '[' :: itemLines ']' level (write (level + 1)) first more rest := by
  simp [write, itemLines, writeItems_eq_flatMap]

theorem write_object (first : String × Json) (more : List (String × Json)) :
    (Json.object (first :: more)).write level ++ rest =
      '\x7b' :: itemLines '\x7d' level (writeMember (level + 1)) first more rest := by
  simp [write, itemLines, writeMember, writeMembers_eq_flatMap]

/-- An item is shorter than all lines together. -/
theorem length_lt_length_itemLines {α : Type} (closing : Char) (text : α → List Char) {a first : α}
    {more : List α} (h : a ∈ first :: more) :
    (text a).length < (itemLines closing level text first more rest).length := by
  simp only [itemLines, List.length_append, List.length_cons]
  rcases List.mem_cons.1 h with rfl | hmem
  · omega
  · obtain ⟨front, behind, rfl⟩ := List.append_of_mem hmem
    simp only [List.flatMap_append, List.flatMap_cons, List.length_append, List.length_cons]
    omega

end

end Json

/-! ### Items between brackets -/

namespace Datum

/-- Written items are read as their values, in front of all that cannot belong to them, and none
begins with a blank or with the closing bracket. -/
structure IsRead {α β : Type} (closing : Char) (item? : List Char → Option (β × List Char))
    (text : α → List Char) (value : α → β) (items : List α) : Prop where
  read : ∀ a ∈ items, ∀ rest, StopsAt isWordChar rest →
    item? (text a ++ rest) = some (value a, rest)
  start : ∀ c s, isBlank c = true ∨ c = closing → item? (c :: s) = none

theorem skipBlanks_cons {c : Char} (hc : isBlank c = false) (s : List Char) :
    skipBlanks (c :: s) = c :: s :=
  List.dropWhile_cons_of_neg (by simp [hc])

theorem skipBlanks_lineBreak (level : Nat) (s : List Char) :
    skipBlanks (Json.lineBreak level ++ s) = skipBlanks s := by
  refine List.dropWhile_append_of_pos fun c hc => ?_
  rcases List.mem_cons.1 hc with rfl | hc
  · rfl
  · rw [List.eq_of_mem_replicate hc]
    rfl

/-- What is read as it stands has no blanks in front. -/
theorem skipBlanks_of_eq_some {β : Type} {read? : List Char → Option β}
    (hblank : ∀ c s, isBlank c = true → read? (c :: s) = none) {s : List Char} {b : β}
    (h : read? s = some b) : skipBlanks s = s := by
  cases s with
  | nil => rfl
  | cons c s =>
    cases hc : isBlank c with
    | true => simp [hblank c s hc] at h
    | false => exact skipBlanks_cons hc s

section Items

variable {α β : Type} {closing : Char} {item? : List Char → Option (β × List Char)}
  {text : α → List Char} {value : α → β}

theorem IsRead.skipBlanks {items : List α} (h : IsRead closing item? text value items) {a : α}
    (ha : a ∈ items) {rest : List Char} (hrest : StopsAt isWordChar rest) :
    Datum.skipBlanks (text a ++ rest) = text a ++ rest :=
  skipBlanks_of_eq_some (fun c s hc => h.start c s (Or.inl hc)) (h.read a ha rest hrest)

theorem enclosed?_closing (item? : List Char → Option (β × List Char))
    (hclosing : isBlank closing = false) (rest : List Char) :
    enclosed? closing item? (closing :: rest) = some ([], rest) := by
  rw [enclosed?, skipBlanks_cons hclosing]
  simp

variable (hclosing : isBlank closing = false ∧ closing ≠ ',') (level : Nat) {first : α}
  {more : List α} (rest : List Char)

include hclosing

/-- **Items on lines of their own**, with a comma behind each but the last. -/
theorem items?_itemLines (h : IsRead closing item? text value (first :: more)) :
    items? closing item? (Json.itemLines closing level text first more rest) =
      some ((first :: more).map value, rest) := by
  induction more generalizing first with
  | nil =>
    have hstop : StopsAt isWordChar (Json.lineBreak level ++ closing :: rest) :=
      Text.stopsAt_cons.2 rfl
    rw [items?, Json.itemLines, skipBlanks_lineBreak, List.flatMap_nil, List.nil_append,
      h.skipBlanks List.mem_cons_self hstop, h.read first List.mem_cons_self _ hstop]
    simp only [skipBlanks_lineBreak, skipBlanks_cons hclosing.1, if_true]
    rfl
  | cons second more ih =>
    -- What stands behind the comma are the lines of the other items.
    have hmore := ih ⟨fun a ha => h.read a (List.mem_cons_of_mem first ha), h.start⟩
    obtain ⟨behind, hbehind⟩ :
      ∃ behind, behind = Json.itemLines closing level text second more rest := ⟨_, rfl⟩
    have htext : Json.itemLines closing level text first (second :: more) rest =
        Json.lineBreak (level + 1) ++ (text first ++ ',' :: behind) := by
      simp [hbehind, Json.itemLines]
    have hstop : StopsAt isWordChar (',' :: behind) := Text.stopsAt_cons.2 rfl
    have hlength : behind.length <
        (Json.lineBreak (level + 1) ++ (text first ++ ',' :: behind)).length := by
      simp only [List.length_append, List.length_cons]
      omega
    have hcomma : isBlank ',' = false := rfl
    rw [← hbehind] at hmore
    rw [htext, items?, skipBlanks_lineBreak, h.skipBlanks List.mem_cons_self hstop,
      h.read first List.mem_cons_self _ hstop]
    simp only [skipBlanks_cons hcomma, if_neg hclosing.2.symm, hlength, and_self, if_true, hmore]
    rfl

/-- The lines of the items, between the brackets. -/
theorem enclosed?_itemLines (h : IsRead closing item? text value (first :: more)) :
    enclosed? closing item? (Json.itemLines closing level text first more rest) =
      some ((first :: more).map value, rest) := by
  have hitems := items?_itemLines hclosing level rest h
  unfold Json.itemLines at hitems ⊢
  obtain ⟨behind, hbehind⟩ : ∃ behind, behind =
    more.flatMap (fun a => ',' :: (Json.lineBreak (level + 1) ++ text a)) ++
      (Json.lineBreak level ++ closing :: rest) := ⟨_, rfl⟩
  have hstop : StopsAt isWordChar behind := by
    rw [hbehind]
    cases more <;> exact Text.stopsAt_cons.2 rfl
  rw [← hbehind] at hitems ⊢
  -- An item that began with the closing bracket would not be read.
  have hhead : (text first ++ behind).head? ≠ some closing := by
    intro hhead
    obtain ⟨s, hs⟩ := List.head?_eq_some_iff.1 hhead
    have hread := h.read first List.mem_cons_self behind hstop
    rw [hs, h.start closing s (Or.inr rfl)] at hread
    cases hread
  rw [enclosed?, skipBlanks_lineBreak, h.skipBlanks List.mem_cons_self hstop, if_neg hhead, hitems]

end Items

/-! ### What values and members begin with -/

theorem value?_cons_eq_none {c : Char} (hc : isBlank c = true ∨ c = ']') (levels : Nat)
    (s : List Char) : value? levels (c :: s) = none := by
  have hword : isWordChar c = false := by
    rcases hc with hc | rfl
    · simp only [isBlank, Bool.or_eq_true, beq_iff_eq] at hc
      rcases hc with ((rfl | rfl) | rfl) | rfl <;> rfl
    · rfl
  have hrun : (c :: s).takeWhile isWordChar = [] := List.takeWhile_cons_of_neg (by simp [hword])
  have hne : ∀ d, ¬(isBlank d = true ∨ d = ']') → c ≠ d := fun d hd heq => hd (heq ▸ hc)
  cases levels with
  | zero => rfl
  | succ levels =>
    unfold value?
    split
    · next heq => exact absurd (List.cons.inj heq).1 (hne '"' (by decide))
    · next heq => exact absurd (List.cons.inj heq).1 (hne '[' (by decide))
    · next heq => exact absurd (List.cons.inj heq).1 (hne '\x7b' (by decide))
    · rw [hrun]
      rfl

theorem member?_cons_eq_none {read? : List Char → Option (Datum × List Char)} {c : Char}
    (hc : isBlank c = true ∨ c = '\x7d') (s : List Char) : member? read? (c :: s) = none := by
  unfold member?
  split
  · next heq =>
    rw [(List.cons.inj heq).1] at hc
    exact absurd hc (by decide)
  · rfl

end Datum

namespace Json

/-! ### Values with their items -/

mutual

/-- What a value is read as. -/
def datum : Json → Datum
  | .natural n => .number (decimal n)
  | .real x => .ofFloat x
  | .text s => .text s
  | .list items => .list (itemData items)
  | .object members => .object (memberData members)

/-- What the items of a list are read as. -/
def itemData : List Json → List Datum
  | [] => []
  | item :: items => item.datum :: itemData items

/-- What the members of an object are read as. -/
def memberData : List (String × Json) → List (String × Datum)
  | [] => []
  | (name, value) :: members => (name, value.datum) :: memberData members

end

theorem itemData_eq_map (items : List Json) : itemData items = items.map datum := by
  induction items with
  | nil => rfl
  | cons item items ih => rw [itemData, ih, List.map_cons]

theorem memberData_eq_map (members : List (String × Json)) :
    memberData members = members.map fun member => (member.1, member.2.datum) := by
  induction members with
  | nil => rfl
  | cons member members ih => rw [memberData, ih, List.map_cons]

/-- **Induction on a value with its items**, those of lists and those of objects. -/
theorem inductItems {P : Json → Prop} (natural : ∀ n, P (.natural n)) (real : ∀ x, P (.real x))
    (text : ∀ s, P (.text s)) (list : ∀ items, (∀ item ∈ items, P item) → P (.list items))
    (object : ∀ members, (∀ member ∈ members, P member.2) → P (.object members)) (json : Json) :
    P json :=
  @Json.rec P (fun items => ∀ item ∈ items, P item)
    (fun members => ∀ member ∈ members, P member.2) (fun member => P member.2)
    natural real text list object
    (fun _ h => nomatch h) (fun _ _ hitem hitems => List.forall_mem_cons.2 ⟨hitem, hitems⟩)
    (fun _ h => nomatch h) (fun _ _ hmember hmembers => List.forall_mem_cons.2 ⟨hmember, hmembers⟩)
    (fun _ _ hvalue => hvalue) json

/-! ### Reading back -/

/-- A value is read as what it was written from, if so many levels are allowed. -/
def ReadsBack (levels level : Nat) (json : Json) : Prop :=
  ∀ rest, StopsAt Datum.isWordChar rest →
    Datum.value? levels (json.write level ++ rest) = some (json.datum, rest)

section

variable (levels level : Nat)

theorem isRead_items {items : List Json} (h : ∀ item ∈ items, ReadsBack levels level item) :
    Datum.IsRead ']' (Datum.value? levels) (write level) datum items :=
  ⟨h, fun _ s hc => Datum.value?_cons_eq_none hc levels s⟩

theorem isRead_members {members : List (String × Json)}
    (h : ∀ member ∈ members, ReadsBack levels level member.2) :
    Datum.IsRead '\x7d' (Datum.member? (Datum.value? levels)) (writeMember level)
      (fun member => (member.1, member.2.datum)) members := by
  refine ⟨fun member hmember rest hrest => ?_, fun _ s hc => Datum.member?_cons_eq_none hc s⟩
  have hvalue := h member hmember rest hrest
  have hname := Datum.string?_flatMap_escape member.1.toList
    (':' :: ' ' :: (member.2.write level ++ rest))
  have hskip := Datum.skipBlanks_of_eq_some
    (fun _ s hc => Datum.value?_cons_eq_none (Or.inl hc) levels s) hvalue
  have hcolon : Datum.isBlank ':' = false := rfl
  have hblank : Datum.skipBlanks (' ' :: (member.2.write level ++ rest)) =
      Datum.skipBlanks (member.2.write level ++ rest) := List.dropWhile_cons_of_pos rfl
  simp only [writeMember, quote, List.append_assoc, List.cons_append, List.nil_append,
    Datum.member?, hname, Option.bind_eq_bind, Option.bind_some, Datum.skipBlanks_cons hcolon,
    hblank, hskip, hvalue, Option.pure_def, String.ofList_toList]

end

/-- **A value is read back**, if no fewer levels are allowed than it has characters. -/
theorem readsBack (json : Json) {levels level : Nat} (h : (json.write level).length ≤ levels) :
    ReadsBack (levels + 1) level json := by
  induction json using inductItems generalizing levels level with
  | natural n => exact fun rest hrest => Datum.value?_natural levels n hrest
  | real x => exact fun rest hrest => Datum.value?_real levels x hrest
  | text s => exact fun rest _ => Datum.value?_text levels s rest
  | list items ih =>
    intro rest _
    cases items with
    | nil =>
      have hclosed := Datum.enclosed?_closing (Datum.value? levels)
        (show Datum.isBlank ']' = false from rfl) rest
      change Datum.value? (levels + 1) ('[' :: ']' :: rest) = _
      rw [Datum.value?, hclosed]
      rfl
    | cons first more =>
      have hlength := congrArg List.length (write_list level [] first more)
      rw [List.append_nil, List.length_cons] at hlength
      obtain ⟨levels, rfl⟩ : ∃ l, levels = l + 1 := ⟨levels - 1, by omega⟩
      have hitems := isRead_items (levels + 1) (level + 1) fun item hitem => ih item hitem (by
        have := length_lt_length_itemLines level [] ']' (write (level + 1)) hitem
        omega)
      have hclosing : Datum.isBlank ']' = false ∧ ']' ≠ ',' := by decide
      rw [write_list, Datum.value?, Datum.enclosed?_itemLines hclosing level rest hitems, datum,
        itemData_eq_map]
      rfl
  | object members ih =>
    intro rest _
    cases members with
    | nil =>
      have hclosed := Datum.enclosed?_closing (Datum.member? (Datum.value? levels))
        (show Datum.isBlank '\x7d' = false from rfl) rest
      change Datum.value? (levels + 1) ('\x7b' :: '\x7d' :: rest) = _
      rw [Datum.value?, hclosed]
      rfl
    | cons first more =>
      have hlength := congrArg List.length (write_object level [] first more)
      rw [List.append_nil, List.length_cons] at hlength
      obtain ⟨levels, rfl⟩ : ∃ l, levels = l + 1 := ⟨levels - 1, by omega⟩
      have hmembers := isRead_members (levels + 1) (level + 1) fun member hmember =>
        ih member hmember (by
          have := length_lt_length_itemLines level [] '\x7d' (writeMember (level + 1)) hmember
          simp only [writeMember, List.length_append, List.length_cons] at this
          omega)
      have hclosing : Datum.isBlank '\x7d' = false ∧ '\x7d' ≠ ',' := by decide
      rw [write_object, Datum.value?, Datum.enclosed?_itemLines hclosing level rest hmembers, datum,
        memberData_eq_map]
      rfl

/-- **Every text is JSON, and is read as the value it was written from.** -/
theorem read?_toText (json : Json) : Datum.read? json.toText = some json.datum := by
  have hread := readsBack json (Nat.le_refl (json.write 0).length) [] (Text.stopsAt_nil _)
  rw [List.append_nil] at hread
  have hskip := Datum.skipBlanks_of_eq_some
    (fun _ s hc => Datum.value?_cons_eq_none (Or.inl hc) _ s) hread
  rw [Datum.read?, toText, String.toList_ofList, hskip, hread]
  rfl

end Json

end FirmwareReport
