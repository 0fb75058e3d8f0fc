import Mathlib.Data.List.Forall2
import Primer.Proofs.Execution.Calculation

/-!
Lists of constants are pushed as a whole; other lists are made of the values of their items. The two
forms agree: whatever the items are evaluated by, as long as they call nothing, the same list comes
to lie on the stack, if the stack has room for the evaluation of each item behind the items in front
of it.
-/

set_option autoImplicit false
set_option relaxedAutoImplicit false

namespace Primer

/-- The machine with a number of places on the stack less, which are taken by something else. -/
def Machine.crowded (m : Machine) (front : Nat) : Machine :=
  { m with config.maxStackSize := m.config.maxStackSize - front }

namespace Fragment

variable {code : Fragment} {buffer : Bytecode} {address : Nat}

/-- The code of the items, and the instruction that makes a list of their values. -/
def gather (parts : List Fragment) : Fragment :=
  sequence parts ++ [.makeList (UInt16.ofNat parts.length)]

theorem size_le_sequence {parts : List Fragment} {part : Fragment} (member : part ∈ parts) :
    part.size ≤ size (sequence parts) := by
  induction parts with
  | nil => cases member
  | cons first rest ih =>
    rw [sequence_cons, size_append, size_shift]
    rcases List.mem_cons.mp member with rfl | later
    · omega
    · have smaller := ih later
      omega

/-- Wherever its bytes stand in a buffer, the code puts the value on the stack of the machine and
changes nothing else. -/
def Builds (code : Fragment) (m : Machine) (value : Value) : Prop :=
  ∀ (σ : Type) (hosts : HostTable (StateM σ)) (w : σ) (buffer : Bytecode) (address : Nat),
    buffer.Holds address (code.shift address).bytes → address + code.size ≤ buffer.size →
    buffer.size < 0x80000000 →
    ∃ count, Machine.Reaches hosts count { m with code := buffer, ip := address } w
      { m with
        code := buffer, ip := address + code.size, stack := value :: m.stack,
          steps := m.steps + count } w

/-- Alone in a buffer, the code runs to its end and leaves the value on the stack of the machine. -/
def Evaluates (code : Fragment) (m : Machine) (value : Value) : Prop :=
  ∃ (σ : Type) (hosts : HostTable (StateM σ)) (w w' : σ) (fuel : Nat) (last : Machine),
    Machine.run hosts fuel { m with code := .ofList code.bytes, ip := 0 } w =
        (some ⟨last, none⟩, w') ∧
      last.stack = value :: m.stack

/-- The addresses in the code fit the field for them. -/
def Near (code : Fragment) : Prop :=
  ∀ i ∈ code, ∀ target, i.target? = some target → target < 0x80000000

theorem Sound.near (sound : code.Sound fun _ => False) (short : address + code.size < 0x80000000) :
    (code.shift address).Near := by
  have closed : JumpsTo (· ≤ address + code.size) (code.shift address) := by
    rw [jumpsTo_shift]
    refine sound.closed.imp fun target cut => ?_
    have inside := cut.le_size
    omega
  have uses : (code.shift address).Uses _ := uses_shift.mpr sound.uses
  intro i member target found
  cases jumps : i.jump? with
  | some place =>
    have inside := closed i member place jumps
    cases i <;> cases jumps <;> cases found <;> omega
  | none =>
    have fits := uses i (mem_plain.mpr ⟨member, jumps⟩)
    cases i with
    | call address => exact (fits.2 address rfl).elim
    | jump | jumpIf => cases jumps
    | _ => cases found

/-- The bytes of sound code spell it. -/
theorem Sound.places (sound : code.Sound fun _ => False)
    (held : buffer.Holds address (code.shift address).bytes)
    (whole : address + code.size ≤ buffer.size) (near : (code.shift address).Near) :
    buffer.Places address code := by
  refine Bytecode.spells_of_holds held (by rwa [size_shift]) ?_ near
  intro i member
  cases jumps : i.jump? with
  | none => exact (uses_shift.mpr sound.uses i (mem_plain.mpr ⟨member, jumps⟩)).1
  | some target => cases i <;> first | rfl | cases jumps

/-- Code that stands alone. -/
theorem Sound.places_alone (sound : code.Sound fun _ => False) (near : code.Near) :
    (Bytecode.ofList code.bytes).Places 0 code := by
  apply sound.places
  · simp [Bytecode.Holds, Bytecode.ofList]
  · simp [Bytecode.size, Bytecode.ofList, length_bytes]
  · rwa [shift_zero]

variable {m : Machine} {value : Value} {room : Nat} {made : Option (List Value)}

/-- What code is evaluated to on its own is what it calculates anywhere, and the stack has room for
that, but for the value itself perhaps. -/
theorem Calculates.evaluated (calculates : Calculates code m.locals room made)
    (unlimited : m.config.maxSteps = none) (near : code.Near) (evaluates : code.Evaluates m value) :
    made = some [value] ∧
      m.stack.length + room ≤ max m.config.maxStackSize (m.stack.length + 1) := by
  obtain ⟨σ, hosts, w, w', fuel, last, ran, left⟩ := evaluates
  have placed := calculates.sound.places_alone near
  have runs := calculates.runs hosts
    { m with code := .ofList code.bytes, ip := 0, steps := 0 } w placed rfl unlimited
  generalize stopped : (made.map fun values => (0 + code.size, values ++ m.stack)) = outcome at runs
  cases runs with
  | fails failure cause => exact absurd rfl (failure.error_ne_none ran)
  | @comes count ip stack reaches peaks =>
    obtain ⟨values, rfl, same⟩ := Option.map_eq_some_iff.mp stopped
    cases same
    have beyond : (Bytecode.ofList code.bytes).size ≤ 0 + code.size := by
      simp [Bytecode.size, Bytecode.ofList, length_bytes]
    have final := reaches.run_ends (Machine.turn_beyond beyond) (reaches.lt_fuel ran)
    have agree := ran.symm.trans final
    cases agree
    refine ⟨congrArg some
      (List.append_cancel_right (left : values ++ m.stack = [value] ++ m.stack)), ?_⟩
    have low := peaks.le ⟨fuel, ran⟩ unlimited
    rw [left] at low
    exact low

/-- Code that calculates a value puts it on the stack of a machine with enough room. -/
theorem Calculates.builds (calculates : Calculates code m.locals room (some [value]))
    (unlimited : m.config.maxSteps = none) (fits : m.stack.length + room ≤ m.config.maxStackSize) :
    code.Builds m value := by
  intro σ hosts w buffer address held whole short
  have near := calculates.sound.near (Nat.lt_of_le_of_lt whole short)
  have placed := calculates.sound.places held whole near
  cases calculates.runs hosts { m with code := buffer, ip := address } w placed rfl unlimited with
  | comes reaches => exact ⟨_, reaches⟩
  | fails failure cause =>
    rcases cause with none | full
    · cases none
    · exact absurd full (Nat.not_lt.mpr fits)

/-- Code that puts a value on the stack runs to its end where it stands alone. -/
theorem Builds.alone {σ : Type} (hosts : HostTable (StateM σ)) (w : σ)
    (builds : code.Builds m value) (short : code.size < 0x80000000) : ∃ fuel last,
      Machine.runFrom hosts fuel { m with code := .ofList code.bytes, ip := 0 } w =
        (some ⟨last, none⟩, w) ∧ last.stack = value :: m.stack := by
  have size : (Bytecode.ofList code.bytes).size = code.size := by
    simp [Bytecode.size, Bytecode.ofList, length_bytes]
  have held : (Bytecode.ofList code.bytes).Holds 0 (code.shift 0).bytes := by
    simp [Bytecode.Holds, Bytecode.ofList]
  obtain ⟨count, reaches⟩ := builds σ hosts w _ 0 held (by omega) (by omega)
  have beyond : (Bytecode.ofList code.bytes).size ≤ 0 + code.size := by omega
  exact ⟨count + 1, _, reaches.run_ends (Machine.turn_beyond beyond) (Nat.lt_succ_self count), rfl⟩

theorem Calculates.evaluates (calculates : Calculates code m.locals room (some [value]))
    (unlimited : m.config.maxSteps = none) (fits : m.stack.length + room ≤ m.config.maxStackSize)
    (short : code.size < 0x80000000) : code.Evaluates m value := by
  have builds := Calculates.builds (m := { m with steps := 0 }) calculates unlimited fits
  obtain ⟨fuel, last, ran, left⟩ := builds.alone {} () short
  exact ⟨Unit, {}, (), (), fuel, last, ran, left⟩

theorem Calculates.gathered {locals : Locals} {parts : List Fragment} {values : List Value}
    (items : Calculates (sequence parts) locals room (some values.reverse))
    (counted : values.length = parts.length) (few : parts.length ≤ 65535) :
    Calculates (gather parts) locals (max room values.length) (some [.list values]) := by
  have makes := items.followed (Plan.computes_counted counted few) rfl ⟨rfl, by simp⟩
  rwa [List.length_reverse] at makes

end Fragment

open Fragment

/-- The code of constants. -/
abbrev Value.pushes (values : List Value) : List Fragment := values.map fun value => [.push value]

theorem Fragment.calculates_pushes {locals : Locals} {values : List Value}
    (passes : ∀ value ∈ values, value.check = .ok ()) :
    Calculates (sequence (Value.pushes values)) locals values.length (some values.reverse) := by
  induction values with
  | nil => exact calculates_nil
  | cons value values ih =>
    have first : Calculates [.push value] locals 0 (some [value]) :=
      calculates_push (passes value List.mem_cons_self)
    have rest := ih fun other member => passes other (List.mem_cons_of_mem value member)
    have height : (value :: values).length = max 0 ([value].length + values.length) := by
      simp only [List.length_cons, List.length_nil]
      omega
    rw [Value.pushes, List.map_cons, sequence_cons, List.reverse_cons, height]
    exact first.append rest

namespace Node

theorem literals?_eq_some {nodes : List Node} {values : List Value} :
    literals? nodes = some values ↔ nodes = values.map .literal := by
  induction nodes generalizing values with
  | nil => cases values <;> simp [literals?]
  | cons a more ih =>
    cases a with
    | literal value =>
      rw [literals?, Option.map_eq_some_iff]
      constructor
      · rintro ⟨rest, found, rfl⟩
        rw [List.map_cons, ih.mp found]
      · intro same
        cases values with
        | nil => cases same
        | cons first values =>
          obtain ⟨head, tail⟩ := List.cons.inj same
          cases head
          exact ⟨values, ih.mpr tail, rfl⟩
    | _ => cases values <;> simp [literals?]

end Node

namespace Compile

theorem items_length {position : Nat} {nodes : List Node} {c c' : Compiler} {parts : List Fragment}
    (done : items position nodes c = .ok (parts, c')) : parts.length = nodes.length := by
  induction nodes generalizing position c parts with
  | nil =>
    simp only [items, pure_eq_ok, Prod.mk.injEq] at done
    rw [done.1]
    rfl
  | cons a more ih =>
    simp only [items] at done
    obtain ⟨_, c₁, _, rest⟩ := bind_eq_ok.mp done
    obtain ⟨others, c₂, given, last⟩ := bind_eq_ok.mp rest
    simp only [pure_eq_ok, Prod.mk.injEq] at last
    obtain ⟨rfl, rfl⟩ := last
    rw [List.length_cons, List.length_cons, ih given]

/-- Constants compile to their pushes. -/
theorem items_literals {position : Nat} {c : Compiler} {values : List Value}
    (passes : ∀ value ∈ values, value.check = .ok ()) :
    items position (values.map .literal) c = .ok (Value.pushes values, c) := by
  induction values generalizing position with
  | nil => rfl
  | cons value values ih =>
    have passed := passes value List.mem_cons_self
    have derivation : Yields (.value (.literal value) none (.listItem (position + 1))) c
        ⟨some value.type, [.push value]⟩ c :=
      .valueFound (.literal passed) rfl (Value.type_ne_void_of_check passed)
    have first := Task.value_run derivation.run rfl
    have rest : items (position + 1) (values.map .literal) c = _ :=
      ih fun other member => passes other (List.mem_cons_of_mem value member)
    rw [List.map_cons, items, bind_of_ok first]
    simp only
    rw [bind_of_ok rest]
    rfl

/-- Items without calls calculate what they are evaluated to on their own, and there is room for
that if there is for each of them behind those in front. -/
theorem items_calculate {position : Nat} {nodes : List Node} {c c' : Compiler}
    {parts : List Fragment}
    {m : Machine} {values : List Value} (done : items position nodes c = .ok (parts, c'))
    (callFree : Node.areCallFree nodes) (unlimited : m.config.maxSteps = none)
    (near : ∀ part ∈ parts, part.Sound (fun _ => False) → part.Near)
    (fits : m.stack.length + position + nodes.length ≤ m.config.maxStackSize)
    (evaluated : List.Forall₂ (fun part value => part.1.Evaluates (m.crowded part.2) value)
      (parts.zipIdx position) values) :
    ∃ room, Calculates (sequence parts) m.locals room (some values.reverse) ∧
      m.stack.length + position + room ≤ m.config.maxStackSize := by
  induction nodes generalizing position c parts values with
  | nil =>
    simp only [items, pure_eq_ok, Prod.mk.injEq] at done
    obtain ⟨rfl, rfl⟩ := done
    cases evaluated
    exact ⟨0, calculates_nil, by omega⟩
  | cons a more ih =>
    simp only [items] at done
    obtain ⟨⟨type, code⟩, c₁, compiled, rest⟩ := bind_eq_ok.mp done
    obtain ⟨others, c₂, given, last⟩ := bind_eq_ok.mp rest
    simp only [pure_eq_ok, Prod.mk.injEq] at last
    obtain ⟨rfl, rfl⟩ := last
    obtain ⟨one, free⟩ := Bool.and_eq_true_iff.mp callFree
    rw [List.length_cons] at fits
    rw [List.zipIdx_cons] at evaluated
    cases evaluated with
    | @cons _ value _ values here there =>
      obtain ⟨room, made, calculates, -⟩ := ((derived a).value compiled).calculated one m.locals
      obtain ⟨rfl, low⟩ := Calculates.evaluated (m := m.crowded position) calculates unlimited
        (near code List.mem_cons_self calculates.sound) here
      obtain ⟨further, tail, enough⟩ := ih given free
        (fun part member => near part (List.mem_cons_of_mem code member)) (by omega) there
      refine ⟨max room (1 + further), ?_, ?_⟩
      · rw [sequence_cons, List.reverse_cons]
        exact calculates.append tail
      · simp only [Machine.crowded] at low
        omega

variable {nodes : List Node} {want : Option Ty} {c c' : Compiler} {x : Compiled}

/-- Which form a list takes depends on its items only. -/
theorem list_cases (accepted : node (.list nodes) want c = .ok (x, c')) :
    (∃ values : List Value, nodes = values.map .literal ∧ (Value.list values).check = .ok () ∧
      x.code = [.push (.list values)] ∧ c' = c) ∨
    Node.literals? nodes = none ∧ nodes.length ≤ 65535 ∧
      ∃ parts, items 0 nodes c = .ok (parts, c') ∧ x.code = gather parts := by
  cases derived _ accepted with
  | @literals _ values _ _ all passes =>
    exact .inl ⟨values, Node.literals?_eq_some.mp all, passes, rfl, rfl⟩
  | list mixed short given =>
    obtain ⟨parts, done, same⟩ := joined_eq_ok.mp given.run
    refine .inr ⟨mixed, Value.checkLength_ok short, parts, done, ?_⟩
    rw [gather, items_length done, same]

/-- Constants are evaluated to themselves. -/
theorem eq_of_evaluated {m : Machine} {front : Nat} {literals values : List Value}
    (unlimited : m.config.maxSteps = none) (passes : ∀ value ∈ literals, value.check = .ok ())
    (evaluated : List.Forall₂ (fun part value => part.1.Evaluates (m.crowded part.2) value)
      ((Value.pushes literals).zipIdx front) values) : values = literals := by
  induction literals generalizing front values with
  | nil =>
    cases evaluated
    rfl
  | cons literal literals ih =>
    rw [Value.pushes, List.map_cons, List.zipIdx_cons] at evaluated
    cases evaluated with
    | @cons _ value _ values here there =>
      have calculates : Calculates [.push literal] m.locals 0 (some [literal]) :=
        calculates_push (passes literal List.mem_cons_self)
      have near : Near [.push literal] := by simp [Near, Instruction.target?]
      obtain ⟨same, -⟩ := Calculates.evaluated (m := m.crowded front) calculates unlimited near here
      cases same
      rw [ih (fun other member => passes other (List.mem_cons_of_mem _ member)) there]

/-- The list of constants, as its items make it. -/
theorem gather_pushes {locals : Locals} {values : List Value}
    (passes : (Value.list values).check = .ok ()) :
    Calculates (gather (Value.pushes values)) locals values.length (some [.list values]) := by
  obtain ⟨few, all⟩ := Value.check_list passes
  have length : (Value.pushes values).length = values.length := List.length_map _
  have items :
      Calculates (sequence (Value.pushes values)) locals values.length (some values.reverse) :=
    calculates_pushes all
  have gathers := items.gathered length.symm (by omega)
  rwa [Nat.max_self] at gathers

/-- Items without calls make the list of what they are evaluated to on their own. -/
theorem gather_builds {parts : List Fragment} {m : Machine} {values : List Value}
    (done : items 0 nodes c = .ok (parts, c')) (few : nodes.length ≤ 65535)
    (callFree : Node.areCallFree nodes) (unlimited : m.config.maxSteps = none)
    (fits : m.stack.length + nodes.length ≤ m.config.maxStackSize)
    (evaluated : List.Forall₂ (fun part value => part.1.Evaluates (m.crowded part.2) value)
      parts.zipIdx values) : (gather parts).Builds m (.list values) := by
  -- The buffer that holds the code bounds the addresses in it, so it is introduced first.
  intro σ hosts w buffer address held whole short
  have near : ∀ part ∈ parts, part.Sound (fun _ => False) → part.Near := by
    intro part member sound
    have within := size_le_sequence member
    have less : 0 + part.size < 0x80000000 := by
      rw [gather, size_append] at whole
      omega
    have near := sound.near less
    rwa [shift_zero] at near
  have count := items_length done
  have counted := evaluated.length_eq
  rw [List.length_zipIdx] at counted
  obtain ⟨room, items, enough⟩ := items_calculate done callFree unlimited near fits evaluated
  have gathers := items.gathered counted.symm (by omega)
  exact gathers.builds unlimited (by omega) σ hosts w buffer address held whole short

theorem calculates_boolean (locals : Locals) (b : Bool) :
    Calculates [.push (.boolean b)] locals 0 (some [.boolean b]) := calculates_push rfl

theorem calculates_equal (locals : Locals) (a b : Bool) :
    Calculates [.push (.boolean a), .push (.boolean b), .equal] locals 2
      (some [.boolean (a == b)]) := by
  have both : Calculates [.push (.boolean a), .push (.boolean b)] locals 1
      (some [.boolean b, .boolean a]) := (calculates_boolean _ a).append (calculates_boolean _ b)
  have equal : Plan.Computes .equal [.boolean b, .boolean a] (.ok (some (.boolean (a == b)))) :=
    Plan.computes_comparison (show BinaryOp.comparison? .equal = some .equal from rfl) _ _
  exact both.followed equal rfl ⟨rfl, by simp⟩

/-- A constant, and a comparison of constants. -/
def compared : List Node :=
  [.literal (.boolean true), .binary .equal (.literal (.boolean true)) (.literal (.boolean false))]

/-- The code of the two. -/
def comparedParts : List Fragment :=
  [[.push (.boolean true)], [.push (.boolean true), .push (.boolean false), .equal]]

theorem compared_evaluated {m : Machine} (unlimited : m.config.maxSteps = none)
    (fits : m.stack.length + 2 ≤ m.config.maxStackSize) :
    List.Forall₂ (Evaluates · m) comparedParts [.boolean true, .boolean false] := by
  refine .cons ((calculates_boolean _ true).evaluates unlimited (by omega) (by decide))
    (.cons ?_ .nil)
  exact (calculates_equal _ true false).evaluates unlimited fits (by decide)

/-- A list of constants is pushed as a whole, which has the effect of pushing its items and making a
list of them. Any other list is made of its items, and is the list of their values. -/
theorem list_forms (accepted : node (.list nodes) want c = .ok (x, c')) :
    (∀ values : List Value, nodes = values.map .literal →
      x.code = [.push (.list values)] ∧ items 0 nodes c = .ok (Value.pushes values, c) ∧
      ∀ m : Machine, m.config.maxSteps = none →
        m.stack.length + values.length ≤ m.config.maxStackSize →
        x.code.Builds m (.list values) ∧ (gather (Value.pushes values)).Builds m (.list values)) ∧
    ((¬ ∃ values : List Value, nodes = values.map .literal) →
      ∃ parts, items 0 nodes c = .ok (parts, c') ∧ x.code = gather parts) ∧
    ∀ parts, items 0 nodes c = .ok (parts, c') → Node.areCallFree nodes →
      ∀ m : Machine, m.config.maxSteps = none →
        m.stack.length + nodes.length ≤ m.config.maxStackSize →
        ∀ values, List.Forall₂ (fun part value => part.1.Evaluates (m.crowded part.2) value)
            parts.zipIdx values →
          x.code.Builds m (.list values) := by
  rcases list_cases accepted with
    ⟨literals, rfl, passes, code, rfl⟩ | ⟨mixed, few, parts, done, code⟩
  · have all := (Value.check_list passes).2
    have pushes {m : Machine} (unlimited : m.config.maxSteps = none)
        (fits : m.stack.length ≤ m.config.maxStackSize) : x.code.Builds m (.list literals) := by
      have push : Calculates [.push (.list literals)] m.locals 0 (some [.list literals]) :=
        calculates_push passes
      rw [code]
      exact push.builds unlimited fits
    refine ⟨fun values same => ?_, fun mixed => absurd ⟨literals, rfl⟩ mixed, ?_⟩
    · obtain rfl : literals = values :=
        List.map_injective_iff.mpr (fun _ _ => Node.literal.inj) same
      refine ⟨code, items_literals all, fun m unlimited fits => ⟨?_, ?_⟩⟩
      · exact pushes unlimited (by omega)
      · exact (gather_pushes passes).builds unlimited fits
    · intro parts done callFree m unlimited fits values evaluated
      rw [items_literals all] at done
      cases done
      rw [eq_of_evaluated unlimited all evaluated]
      exact pushes unlimited (by omega)
  · refine ⟨fun values same => ?_, fun _ => ⟨parts, done, code⟩, ?_⟩
    · rw [Node.literals?_eq_some.mpr same] at mixed
      cases mixed
    · intro others given callFree m unlimited fits values evaluated
      rw [done] at given
      cases given
      rw [code]
      exact gather_builds done few callFree unlimited fits evaluated

/-- A machine with nothing but room for values. -/
def vacant (size : Nat) : Machine where
  config := { maxStackSize := size }

/-- A constant, and a conjunction whose left side is enough. -/
def skipped : List Node :=
  [.literal (.boolean true), .binary (.logic .and) (.literal (.boolean false))
    (.binary .equal (.literal (.boolean true)) (.literal (.boolean true)))]

/-- The code of the two. -/
def skippedParts : List Fragment :=
  [[.push (.boolean true)],
    shortCircuit .and [.push (.boolean false)] [.push (.boolean true), .push (.boolean true),
      .equal]]

/-- The comparison is not evaluated, so there need be no room for its operands next to the first
item. -/
theorem list_forms_skipped :
    node (.list skipped) none {} = .ok (⟨some .list, gather skippedParts⟩, {}) ∧
    items 0 skipped {} = .ok (skippedParts, {}) ∧ Node.areCallFree skipped ∧
    List.Forall₂ (fun part value => part.1.Evaluates ((vacant 2).crowded part.2) value)
      skippedParts.zipIdx [.boolean true, .boolean false] ∧
    (gather skippedParts).Builds (vacant 2) (.list [.boolean true, .boolean false]) := by
  have accepted : node (.list skipped) none {} = .ok (⟨some .list, gather skippedParts⟩, {}) := rfl
  have inverted : Calculates (deciding .and [.push (.boolean false)]) (vacant 2).locals 1
      (some [.boolean true]) :=
    (calculates_boolean _ false).followed (i := .invert) (Plan.computes_unary .invert _) rfl
      ⟨rfl, by simp⟩
  have sound :=
    (calculates_boolean {} false).sound.shortCircuit .and (calculates_equal {} true true).sound
  have evaluated :
      List.Forall₂ (fun part value => part.1.Evaluates ((vacant 2).crowded part.2) value)
      skippedParts.zipIdx [.boolean true, .boolean false] := by
    refine .cons ((calculates_boolean _ true).evaluates rfl (by decide) (by decide)) (.cons ?_ .nil)
    exact Calculates.evaluates (m := (vacant 2).crowded 1) (inverted.decided sound) rfl (by decide)
      (by decide)
  refine ⟨accepted, rfl, rfl, evaluated, ?_⟩
  exact (list_forms accepted).2.2 skippedParts rfl rfl (vacant 2) rfl (by decide) _ evaluated

/-- Room for the items alone is not enough for the list. -/
theorem list_forms_crowded :
    node (.list compared) none {} = .ok (⟨some .list, gather comparedParts⟩, {}) ∧
    items 0 compared {} = .ok (comparedParts, {}) ∧ Node.areCallFree compared ∧
    (vacant 2).config.maxSteps = none ∧
    (vacant 2).stack.length + compared.length ≤ (vacant 2).config.maxStackSize ∧
    List.Forall₂ (fun part value => part.Evaluates (vacant 2) value) comparedParts
      [.boolean true, .boolean false] ∧
    ¬ (gather comparedParts).Builds (vacant 2) (.list [.boolean true, .boolean false]) := by
  refine ⟨rfl, rfl, rfl, rfl, by decide, compared_evaluated rfl (by decide), fun builds => ?_⟩
  obtain ⟨fuel, last, ran, -⟩ := builds.alone (σ := Unit) {} () (by decide)
  obtain ⟨full, w, reaches, seen⟩ := Machine.exists_of_reached?
    (fun m _ => (m.stack.length, m.ip, m.code.size, m.config))
    (by decide +kernel : (Machine.reached? (σ := Unit) {} 3
      { vacant 2 with code := .ofList (gather comparedParts).bytes, ip := 0 } ()).map _ =
        some (3, 9, 13, (vacant 2).config))
  simp only [Prod.mk.injEq] at seen
  obtain ⟨stack, ip, size, config⟩ := seen
  have exceeds :
      Machine.exceeded? { full with steps := full.steps + 1 } = some (.stackLimit 2) := by
    simp only [Machine.exceeded?, config, stack]
    rfl
  have failure : Machine.Fails {} _ () :=
    ⟨_, _, _, _, _, reaches, Machine.turn_exceeded (by omega) exceeds, Option.some_ne_none _⟩
  exact failure.error_ne_none ran rfl

end Compile

end Primer
