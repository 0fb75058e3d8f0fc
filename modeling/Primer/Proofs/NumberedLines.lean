import Mathlib.Data.List.Forall2
import Primer.Listing
import Primer.Proofs.EncodedValues

/-!
The lines of a listing that start with a digit. Each instruction has one, with its offset, the mark
if a jump leads there, and its mnemonic, and so has the fault that ends the listing. There are no
others, as long as no host procedure is called whose name breaks the line and goes on with a digit:
names are written as they are, while all other operands stay on their line.
-/

set_option autoImplicit false
set_option relaxedAutoImplicit false

namespace Primer

namespace Text

/-- The lines of a text: what stands between its line breaks. -/
def lines (s : String) : List (List Char) := s.toList.splitOn '\n'

/-- A line that starts with a digit. -/
def isNumbered (line : List Char) : Bool := line.head?.any Char.isDigit

/-- The lines of a text that start with a digit. -/
def numbered (s : String) : List (List Char) := (lines s).filter isNumbered

/-- The text does not break the line. -/
def Inline (s : String) : Prop := '\n' ∉ s.toList

instance (s : String) : Decidable (Inline s) := inferInstanceAs (Decidable ('\n' ∉ s.toList))

theorem inline_append {first second : String} (front : Inline first) (back : Inline second) :
    Inline (first ++ second) := by
  rw [Inline, String.toList_append, List.mem_append, not_or]
  exact ⟨front, back⟩

theorem inline_ofList {cs : List Char} : Inline (String.ofList cs) ↔ '\n' ∉ cs := by
  rw [Inline, String.toList_ofList]

theorem inline_join {separator : String} (between : Inline separator) {texts : List String}
    (each : ∀ text ∈ texts, Inline text) : Inline (Value.join separator texts) := by
  have onto {done : String} (before : Inline done) {texts : List String}
      (each : ∀ text ∈ texts, Inline text) :
      Inline (texts.foldl (fun done next => done ++ separator ++ next) done) := by
    induction texts generalizing done with
    | nil => exact before
    | cons next more ih =>
      rw [List.forall_mem_cons] at each
      exact ih (inline_append (inline_append before between) each.1) each.2
  cases texts with
  | nil => exact inline_ofList.mpr List.not_mem_nil
  | cons first more =>
    rw [List.forall_mem_cons] at each
    exact onto each.1 each.2

/-- A character behind a front that does not break the line belongs to the line of the front. -/
theorem splitOn_inline_append {front : List Char} (inline : '\n' ∉ front) (rest : List Char) :
    (front ++ rest).splitOn '\n' = (rest.splitOn '\n').modifyHead (front ++ ·) := by
  induction front with
  | nil =>
    rw [List.nil_append]
    cases rest.splitOn '\n' <;> rfl
  | cons c front ih =>
    rw [List.mem_cons, not_or] at inline
    have other : (c == '\n') = false := beq_eq_false_iff_ne.mpr (Ne.symm inline.1)
    rw [List.cons_append, List.splitOn_cons_eq_if_modifyHead, other, ih inline.2]
    simp [Function.comp_def]

theorem numbered_of_inline {s : String} (inline : Inline s) :
    numbered s = if isNumbered s.toList then [s.toList] else [] := by
  rw [numbered, lines, List.splitOn_eq_singleton inline, List.filter_singleton, Bool.cond_eq_ite]

theorem numbered_blank {s : String} (inline : Inline s) : numbered (" " ++ s) = [] := by
  rw [numbered_of_inline (inline_append (by decide) inline), String.toList_append]
  rfl

/-- What stands behind a text that does not break the line comes to its first line. -/
theorem numbered_append {front : String} (inline : Inline front)
    (starts : ∀ rest, isNumbered (front.toList ++ rest) = true) (s : String) :
    ∃ rest, numbered (front ++ s) = (front.toList ++ rest) :: (lines s).tail.filter isNumbered := by
  cases split : lines s with
  | nil => exact absurd split (List.splitOn_ne_nil _ _)
  | cons first more =>
    refine ⟨first, ?_⟩
    rw [numbered, lines, String.toList_append, splitOn_inline_append inline, ← lines, split,
      List.modifyHead_cons, List.filter_cons, if_pos (starts first)]
    rfl

/-- Texts that end with a line break each, one after another. -/
theorem toList_join_breaks (texts : List String) :
    (Value.join "" (texts.map (· ++ "\n"))).toList = texts.flatMap (·.toList ++ ['\n']) := by
  have onto (texts : List String) (done : String) :
      (texts.foldl (fun done next => done ++ "" ++ next) done).toList =
        done.toList ++ texts.flatMap String.toList := by
    induction texts generalizing done with
    | nil => simp
    | cons next more ih =>
      rw [List.foldl_cons, ih]
      simp
  cases texts with
  | nil => rfl
  | cons first more =>
    rw [List.map_cons, Value.join, onto, List.flatMap_map]
    simp

theorem numbered_join_breaks (texts : List String) :
    numbered (Value.join "" (texts.map (· ++ "\n"))) = texts.flatMap numbered := by
  rw [numbered, lines, toList_join_breaks]
  induction texts with
  | nil => rfl
  | cons first more ih =>
    rw [List.flatMap_cons, List.append_assoc, List.singleton_append, List.splitOn_append_cons_self,
      List.filter_append, ih]
    rfl

end Text

open Text

theorem toDigits_inline {base : Nat} (least : 1 < base) (n : Nat) : '\n' ∉ Nat.toDigits base n := by
  induction n using Nat.strongRecOn with
  | _ n ih =>
    rw [Nat.toDigits_eq_if least]
    split
    · simp
    · rename_i large
      rw [List.mem_append, not_or]
      exact ⟨ih _ (Nat.div_lt_self (by omega) least), by simp⟩

theorem toString_inline (n : Nat) : Inline (toString n) := by
  rw [Nat.toString_eq_ofList_toDigits, inline_ofList]
  exact toDigits_inline (by decide) n

theorem zeros_inline (count : Nat) : Inline (Decimal.zeros count) := by
  rw [Decimal.zeros, inline_ofList]
  simp [List.mem_replicate]

theorem Decimal.positional_inline (d : Decimal) : Inline d.positional := by
  have shown := toDigits_inline (by decide : 1 < 10) d.digits
  unfold positional
  simp only
  split
  · exact inline_append (inline_ofList.mpr shown) (zeros_inline _)
  · split
    · refine inline_append (inline_append (inline_ofList.mpr fun member => shown ?_) (by decide))
        (inline_ofList.mpr fun member => shown ?_)
      · exact List.mem_of_mem_take member
      · exact List.mem_of_mem_drop member
    · exact inline_append (inline_append (by decide) (zeros_inline _)) (inline_ofList.mpr shown)

theorem Number.text_inline (n : Number) : Inline n.text := by
  have signed {body : String} (inline : Inline body) :
      Inline (if n.isNegative then "-" ++ body else body) := by
    split
    · exact inline_append (by decide) inline
    · exact inline
  unfold text render
  cases n.magnitude with
  | notANumber => exact (by decide : Inline "NaN")
  | infinite => exact signed (by decide)
  | finite x =>
    by_cases zero : x.significand = 0
    · simp only [zero, if_true]
      exact signed (by decide)
    · simp only [zero, if_false]
      exact signed (Decimal.positional_inline _)

theorem Text.quote_inline (s : String) : Inline (quote s) := by
  have each (c : Char) : '\n' ∉ escapeChar c := by
    unfold escapeChar
    split_ifs with _ _ _ line <;> try decide
    · have digits := toDigits_inline (by decide : 1 < 16) c.toNat
      simp [digits]
    · simpa using Ne.symm line
  rw [quote, inline_ofList]
  simp [each]

namespace Value

theorem booleanText_inline (b : Bool) : Inline (booleanText b) := by
  cases b <;> decide

theorem mem_itemsQuoted {items : List Value} {text : String} (member : text ∈ itemsQuoted items) :
    ∃ item ∈ items, text = item.quoted := by
  induction items with
  | nil => cases member
  | cons item items ih =>
    rw [itemsQuoted, List.mem_cons] at member
    rcases member with rfl | later
    · exact ⟨item, List.mem_cons_self, rfl⟩
    · obtain ⟨other, inside, same⟩ := ih later
      exact ⟨other, List.mem_cons_of_mem _ inside, same⟩

/-- However deep a string stands in a value, its line breaks are escaped. -/
theorem quoted_inline (v : Value) : Inline v.quoted := by
  induction v using Value.induction with
  | number n => exact n.text_inline
  | string s => exact quote_inline s
  | boolean b => exact booleanText_inline b
  | void => decide
  | list items ih =>
    rw [quoted]
    refine inline_append (inline_append (by decide) (inline_join (by decide) fun text member => ?_))
      (by decide)
    obtain ⟨item, inside, rfl⟩ := mem_itemsQuoted member
    exact ih item inside

end Value

namespace Listing

/-- What a walk through code comes to, one after another: the instructions with their offsets, and
the fault that ends the walk, if one does. -/
def items (code : Bytecode) : List (Except DecodeFault (Nat × Instruction)) :=
  code.walk.instructions.map .ok ++ code.walk.fault.toList.map .error

/-- Some jump of the code leads to the offset. -/
def Targeted (code : Bytecode) (offset : Nat) : Prop :=
  ∃ place, (place, .jump offset) ∈ code.walk.instructions ∨
    (place, .jumpIf offset) ∈ code.walk.instructions

/-- Four digits at least, which spell a number. -/
structure Spells (n : Nat) (digits : List Char) : Prop where
  least : 4 ≤ digits.length
  value : Number.digitsValue digits = n
  digit : ∀ c ∈ digits, c.isDigit = true

/-- The line is that of an item: the offset of an instruction, the mark if a jump leads there, and
the mnemonic as a word of its own; or the offset of the fault, and what is wrong. -/
def Shows (code : Bytecode) : Except DecodeFault (Nat × Instruction) → List Char → Prop
  | .ok (offset, i), line => ∃ digits mark rest, Spells offset digits ∧
      line = digits ++ mark ++ i.opcode.mnemonic.toList ++ rest ∧
      (rest = [] ∨ rest.head? = some ' ') ∧
      (Targeted code offset ∧ mark = " ► ".toList ∨ ¬Targeted code offset ∧ mark = "   ".toList)
  | .error fault, line => ∃ digits, Spells fault.offset digits ∧
      line = digits ++ "   <".toList ++ fault.message.toList ++ ">".toList

/-- What the name of a host procedure that is called adds to the lines that start with a digit:
those of its own lines that do, but for the first, which stands behind the mnemonic. -/
def spilled : Except DecodeFault (Nat × Instruction) → List (List Char)
  | .ok (_, .callHost name) => (Text.lines name).tail.filter Text.isNumbered
  | _ => []

theorem spells_fourDigits (n : Nat) : Spells n (fourDigits n).toList := by
  have shown : (fourDigits n).toList =
      List.replicate (4 - (Nat.toDigits 10 n).length) '0' ++ Nat.toDigits 10 n := by
    rw [fourDigits, String.toList_ofList]
  rw [shown]
  refine ⟨?_, ?_, fun c member => ?_⟩
  · rw [List.length_append, List.length_replicate]
    omega
  · have read : Number.digitsValue = fun cs => Nat.ofDigitChars 10 cs 0 := by
      funext cs
      rw [Number.digitsValue, Nat.ofDigitChars_eq_foldl]
    rw [read]
    simp only [Nat.ofDigitChars_append, Nat.ofDigitChars_replicate_zero, Nat.mul_zero,
      Nat.ofDigitChars_ten_toDigits]
  · rcases List.mem_append.mp member with zero | digit
    · rw [List.eq_of_mem_replicate zero]
      decide
    · exact Nat.isDigit_of_mem_toDigits (by decide) (by decide) digit

theorem Spells.isNumbered {n : Nat} {digits : List Char} (spells : Spells n digits)
    (rest : List Char) : Text.isNumbered (digits ++ rest) = true := by
  have least := spells.least
  cases digits with
  | nil => simp at least
  | cons c more => exact spells.digit c List.mem_cons_self

theorem fourDigits_inline (n : Nat) : Inline (fourDigits n) := by
  intro member
  have digit := (spells_fourDigits n).digit _ member
  cases digit

theorem opcode_inline (op : Opcode) : Inline op.mnemonic ∧ op.mnemonic.length < 12 := by
  cases op with
  | arith op => cases op <;> decide
  | order op => cases op <;> decide
  | _ => decide

theorem message_inline (fault : DecodeFault) : Inline fault.message := by
  have hex (byte : UInt8) : Inline (Bytes.hex byte) := by
    refine inline_append (by decide) (inline_ofList.mpr ?_)
    simp [List.mem_replicate, toDigits_inline]
  have placed {what : String} (inline : Inline what) (offset : Nat) :
      Inline (what ++ toString offset) := inline_append inline (toString_inline offset)
  cases fault with
  | invalidOpcode byte offset | invalidTag byte offset =>
    exact placed (inline_append (inline_append (by decide) (hex byte)) (by decide)) offset
  | voidValue offset | invalidString offset | expectedString offset =>
    exact placed (by decide) offset
  | truncated offset needed =>
    exact inline_append (placed (inline_append (placed (by decide) offset) (by decide)) needed)
      (by decide)
  | badTarget target offset =>
    exact inline_append (placed (inline_append (placed (by decide) target) (by decide)) offset)
      (by decide)

/-- The operand of an instruction stays on its line, unless it is the name of a host procedure. -/
theorem operand_spilled {offset : Nat} {i : Instruction} {operand : String}
    (shown : operand? offset i = some operand) :
    (Text.lines operand).tail.filter isNumbered = spilled (.ok (offset, i)) := by
  have single {operand : String} (inline : Inline operand) :
      (Text.lines operand).tail.filter isNumbered = [] := by
    rw [Text.lines, List.splitOn_eq_singleton inline]
    rfl
  have address (target : Nat) :
      Inline ((if target ≤ offset then "↑ " else "↓ ") ++ fourDigits target) := by
    refine inline_append ?_ (fourDigits_inline target)
    split <;> decide
  have place (slot : UInt8) :
      Inline (if slot = resultSlot then toString slot.toNat ++ "  ; the result"
      else toString slot.toNat) := by
    split
    · exact inline_append (toString_inline _) (by decide)
    · exact toString_inline _
  have named (type : Ty) : Inline type.name := by cases type <;> decide
  cases i with
  | callHost name =>
    rw [← Option.some.inj shown]
    rfl
  | jump | jumpIf | call =>
    rw [← Option.some.inj shown]
    exact single (address _)
  | push value =>
    rw [← Option.some.inj shown]
    exact single value.quoted_inline
  | load | store | free =>
    rw [← Option.some.inj shown]
    exact single (place _)
  | convert | getItem =>
    rw [← Option.some.inj shown]
    exact single (named _)
  | makeList count =>
    rw [← Option.some.inj shown]
    exact single (toString_inline _)
  | _ => cases shown

/-- An instruction behind something that starts a numbered line: the line goes on with the
mnemonic. -/
theorem numbered_instruction {front : String} (inline : Inline front)
    (starts : ∀ rest, isNumbered (front.toList ++ rest) = true) (offset : Nat) (i : Instruction) :
    ∃ rest, numbered (front ++ instruction offset i) =
        (front.toList ++ i.opcode.mnemonic.toList ++ rest) :: spilled (.ok (offset, i)) ∧
      (rest = [] ∨ rest.head? = some ' ') := by
  obtain ⟨word, short⟩ := opcode_inline i.opcode
  cases shown : operand? offset i with
  | none =>
    have bare : spilled (.ok (offset, i)) = [] := by
      cases i <;> first | rfl | cases shown
    refine ⟨[], ?_, .inl rfl⟩
    rw [instruction, shown, numbered_of_inline (inline_append inline word), String.toList_append,
      if_pos (starts _), bare, List.append_nil]
  | some operand =>
    have blanks : 0 < 12 - i.opcode.mnemonic.length := by omega
    have column : (padded 12 i.opcode.mnemonic).toList =
        i.opcode.mnemonic.toList ++ List.replicate (12 - i.opcode.mnemonic.length) ' ' := by
      rw [padded, String.toList_append, String.toList_ofList]
    have column_inline : Inline (padded 12 i.opcode.mnemonic) :=
      inline_append word (inline_ofList.mpr (by simp [List.mem_replicate]))
    obtain ⟨rest, numbers⟩ := numbered_append (inline_append inline column_inline)
      (fun rest => by rw [String.toList_append, List.append_assoc]; exact starts _) operand
    refine ⟨List.replicate (12 - i.opcode.mnemonic.length) ' ' ++ rest, ?_, .inr ?_⟩
    · rw [instruction, shown]
      simp only [← String.append_assoc]
      rw [numbers, operand_spilled shown, String.toList_append, column]
      simp only [List.append_assoc]
    · rw [List.head?_append, List.head?_replicate, if_neg (by omega)]
      rfl

/-- The lines above the instructions start with a rule or a blank. -/
theorem numbered_header (code : Bytecode) (entry : Option Nat) :
    (header code entry).flatMap numbered = [] := by
  have line : numbered rule = [] := by
    rw [numbered_of_inline (by decide +kernel)]
    decide +kernel
  have title : numbered " bytecode" = [] := numbered_blank (s := "bytecode") (by decide)
  have sized {start : String} (inline : Inline start) :
      numbered (" " ++ toString code.size ++ " bytes, " ++ start) = [] := by
    rw [String.append_assoc, String.append_assoc]
    exact numbered_blank (inline_append (toString_inline _) (inline_append (by decide) inline))
  cases entry with
  | none =>
    have last := sized (by decide : Inline "no entry jump")
    simp only [header, List.flatMap_cons, List.flatMap_nil, line, title, last, List.append_nil]
  | some entry =>
    have last := sized (inline_append (by decide : Inline "entry at ") (fourDigits_inline entry))
    simp only [header, List.flatMap_cons, List.flatMap_nil, line, title, last, List.append_nil]

theorem contains_targets {code : Bytecode} {offset : Nat} :
    (code.walk.instructions.filterMap fun entry => jumpTarget? entry.2).contains offset = true ↔
      Targeted code offset := by
  rw [List.contains_iff_mem, List.mem_filterMap]
  constructor
  · rintro ⟨⟨place, i⟩, member, leads⟩
    cases i with
    | jump target =>
      cases leads
      exact ⟨place, .inl member⟩
    | jumpIf target =>
      cases leads
      exact ⟨place, .inr member⟩
    | _ => cases leads
  · rintro ⟨place, member | member⟩
    · exact ⟨_, member, rfl⟩
    · exact ⟨_, member, rfl⟩

/-- Above the line of an instruction there may be a heading and the end of an arrow, which start
with blanks. -/
theorem numbered_entryLines (entry : Option Nat) (targets : List Nat) (offset : Nat)
    (i : Instruction) :
    (entryLines [] entry targets offset i).flatMap numbered =
      numbered (fourDigits offset ++ (if targets.contains offset then " ► " else "   ") ++
        instruction offset i) := by
  have heading : numbered "" ++ numbered (" " ++ "top level" ++ ":") = [] := by decide +kernel
  have above : numbered landing = [] := by decide +kernel
  have body : (if targets.contains offset = true then
        [landing, fourDigits offset ++ " ► " ++ instruction offset i]
      else [fourDigits offset ++ "   " ++ instruction offset i]).flatMap numbered =
      numbered (fourDigits offset ++ (if targets.contains offset then " ► " else "   ") ++
        instruction offset i) := by
    cases targets.contains offset
    · exact List.flatMap_singleton ..
    · simp only [if_true, List.flatMap_cons, List.flatMap_nil, above, List.append_nil,
        List.nil_append]
  by_cases starts : entry = some offset
  · simp only [entryLines, heading?, List.lookup_nil, starts, if_true, List.flatMap_append, body,
      List.flatMap_cons, List.flatMap_nil, List.append_nil, heading, List.nil_append]
  · simp only [entryLines, heading?, List.lookup_nil, starts, if_false, List.nil_append, body]

/-- The lines of an instruction: one line shows it, and no other starts with a digit but what the
name of a host procedure brings. -/
theorem numbered_entry (code : Bytecode) (entry : Option Nat) (offset : Nat) (i : Instruction) :
    ∃ line, Shows code (.ok (offset, i)) line ∧
      (entryLines [] entry (code.walk.instructions.filterMap fun entry => jumpTarget? entry.2)
        offset i).flatMap numbered = line :: spilled (.ok (offset, i)) := by
  have shown {mark : String} (inline : Inline mark)
      (marked : Targeted code offset ∧ mark.toList = " ► ".toList ∨
        ¬Targeted code offset ∧ mark.toList = "   ".toList) :
      ∃ line, Shows code (.ok (offset, i)) line ∧
        numbered (fourDigits offset ++ mark ++ instruction offset i) =
          line :: spilled (.ok (offset, i)) := by
    have starts (rest : List Char) :
        isNumbered ((fourDigits offset ++ mark).toList ++ rest) = true := by
      rw [String.toList_append, List.append_assoc]
      exact (spells_fourDigits offset).isNumbered _
    obtain ⟨rest, numbers, word⟩ :=
      numbered_instruction (inline_append (fourDigits_inline offset) inline) starts offset i
    rw [String.toList_append] at numbers
    exact ⟨_, ⟨_, _, rest, spells_fourDigits offset, rfl, word, marked⟩, numbers⟩
  rw [numbered_entryLines]
  by_cases leads : Targeted code offset
  · rw [if_pos (contains_targets.mpr leads)]
    exact shown (by decide) (.inl ⟨leads, rfl⟩)
  · rw [if_neg fun found => leads (contains_targets.mp found)]
    exact shown (by decide) (.inr ⟨leads, rfl⟩)

theorem numbered_fault (code : Bytecode) (fault : DecodeFault) :
    ∃ line, Shows code (.error fault) line ∧ numbered (faultLine fault) = [line] := by
  have inline : Inline (faultLine fault) :=
    inline_append
      (inline_append (inline_append (fourDigits_inline _) (by decide)) (message_inline fault))
      (by decide)
  refine ⟨(faultLine fault).toList, ⟨_, spells_fourDigits fault.offset, ?_⟩, ?_⟩
  · simp only [faultLine, String.toList_append]
  · rw [numbered_of_inline inline, if_pos]
    simp only [faultLine, String.toList_append, List.append_assoc]
    exact (spells_fourDigits _).isNumbered _

/-- The lines of an item of the walk. -/
def itemLines (code : Bytecode) : Except DecodeFault (Nat × Instruction) → List String
  | .ok (offset, i) => entryLines [] code.entryPoint.toOption
      (code.walk.instructions.filterMap fun entry => jumpTarget? entry.2) offset i
  | .error fault => [faultLine fault]

theorem lines_eq (code : Bytecode) :
    lines code [] = header code code.entryPoint.toOption ++ (items code).flatMap
      (itemLines code) := by
  rw [items, List.flatMap_append, List.flatMap_map, List.flatMap_map, ← List.append_assoc]
  simp only [lines]
  cases code.walk.fault with
  | none => rfl
  | some fault => rfl

theorem numbered_itemLines (code : Bytecode) (item : Except DecodeFault (Nat × Instruction)) :
    ∃ line, Shows code item line ∧
      (itemLines code item).flatMap numbered = line :: spilled item := by
  cases item with
  | ok entry => exact numbered_entry code _ entry.1 entry.2
  | error fault =>
    obtain ⟨line, shows, numbers⟩ := numbered_fault code fault
    exact ⟨line, shows, (List.flatMap_singleton ..).trans numbers⟩

theorem numbered_text (code : Bytecode) :
    numbered (text code []) = (items code).flatMap fun item =>
      (itemLines code item).flatMap numbered := by
  rw [text, numbered_join_breaks, lines_eq, List.flatMap_append, numbered_header, List.nil_append,
    List.flatMap_assoc]

/-- In the order of the walk, each item has its line, behind which stands what the item spills. -/
theorem numbered_text_shown (code : Bytecode) :
    ∃ shown, List.Forall₂ (Shows code) (items code) shown ∧
      numbered (text code []) =
        (List.zipWith (fun item line => line :: spilled item) (items code) shown).flatten := by
  rw [numbered_text]
  induction items code with
  | nil => exact ⟨[], .nil, rfl⟩
  | cons item rest ih =>
    obtain ⟨line, shows, numbers⟩ := numbered_itemLines code item
    obtain ⟨shown, others, behind⟩ := ih
    refine ⟨line :: shown, .cons shows others, ?_⟩
    rw [List.flatMap_cons, numbers, behind, List.zipWith_cons_cons, List.flatten_cons]

section Spilling

variable {code : Bytecode} {items : List (Except DecodeFault (Nat × Instruction))}
  {shown : List (List Char)}

theorem flatten_of_nothing_spilled (shows : List.Forall₂ (Shows code) items shown)
    (kept : ∀ item ∈ items, spilled item = []) :
    (List.zipWith (fun item line => line :: spilled item) items shown).flatten = shown := by
  induction shows with
  | nil => rfl
  | cons _ _ ih =>
    rw [List.zipWith_cons_cons, List.flatten_cons, kept _ List.mem_cons_self,
      ih fun item member => kept item (List.mem_cons_of_mem _ member)]
    rfl

theorem length_flatten_spilled (shows : List.Forall₂ (Shows code) items shown) :
    (List.zipWith (fun item line => line :: spilled item) items shown).flatten.length =
      items.length + (items.flatMap spilled).length := by
  induction shows with
  | nil => rfl
  | cons _ _ ih =>
    simp only [List.zipWith_cons_cons, List.flatten_cons, List.length_append, List.length_cons, ih,
      List.flatMap_cons]
    omega

end Spilling

/-- The lines of a listing that start with a digit: in order one for each item of the walk, which
shows it, and behind it what the name of a host procedure spills. They are one line an item exactly
if no name does. -/
theorem text_numbered (code : Bytecode) :
    (∃ shown, List.Forall₂ (Shows code) (items code) shown ∧
      numbered (text code []) =
        (List.zipWith (fun item line => line :: spilled item) (items code) shown).flatten) ∧
    (List.Forall₂ (Shows code) (items code) (numbered (text code [])) ↔
      ∀ item ∈ items code, spilled item = []) := by
  obtain ⟨shown, shows, numbers⟩ := numbered_text_shown code
  refine ⟨⟨shown, shows, numbers⟩, fun single => ?_, fun kept => ?_⟩
  · have same := single.length_eq
    rw [numbers, length_flatten_spilled shows] at same
    exact List.flatMap_eq_nil_iff.mp (List.length_eq_zero_iff.mp (by omega))
  · rw [numbers, flatten_of_nothing_spilled shows kept]
    exact shows

/-- A listing may show an instruction that is not there: the name of the host procedure that is
called at 5 goes on behind a line break like the line of an instruction at 12. -/
theorem text_numbered_spilled : ∃ bytes,
    Instruction.encodeAll [.jump 5, .callHost "x\n0012   POP", .ret] = .ok bytes ∧
    items (.ofList bytes) = [.ok (0, .jump 5), .ok (5, .callHost "x\n0012   POP"), .ok (33, .ret)] ∧
    numbered (text (.ofList bytes) []) = ["0000   JUMP        ↓ 0005".toList,
      "0005 ► CALL_EXTERN x".toList, "0012   POP".toList, "0033   RETURN".toList] ∧
    ¬List.Forall₂ (Shows (.ofList bytes)) (items (.ofList bytes))
      (numbered (text (.ofList bytes) [])) := by
  refine ⟨_, rfl, rfl, (numbered_text _).trans (by decide +kernel), fun shows => ?_⟩
  have nothing := (text_numbered _).2.mp shows _ (List.mem_cons_of_mem _ List.mem_cons_self)
  revert nothing
  decide +kernel

end Listing

end Primer
