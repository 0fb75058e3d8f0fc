import Primer.Proofs.Compilation.CallSites
import Primer.Proofs.Compilation.Heights

/-!
The code of the arguments of a call. It stands in front of the call, argument after argument in the
order of the source, and the code of each is annotated with heights that start at nothing and end at
one value: it leaves alone what is on the stack when it starts.
-/

set_option autoImplicit false
set_option relaxedAutoImplicit false

namespace Primer

open Compile Trade Fragment

variable {t : Trade} {whole task inner : Task} {before c c' d d' e : Compiler} {x y : Compiled}
  {offset rest : Nat} {others : List UInt8}

/-- What is traded agrees with what is known up to an earlier state. -/
theorem Trade.Knows.upTo (knows : t.Knows c e) (precedes : d.Precedes e) : t.Knows c d :=
  ⟨fun p member => knows.defined p (precedes.procedures.subset member), knows.hosts, knows.drafted,
    knows.filled, knows.proper⟩

/-- What is traded agrees with what is known where a part starts, and the part is not wanted
void. -/
theorem Part.knows (part : Part task c rest inner d) (derivation : Yields task c x c')
    (tidy : c.scope.Tidy) (wants : task.WantsValue) (knows : t.Knows c e) :
    t.Knows d e ∧ inner.WantsValue := by
  cases part with
  | unary => exact ⟨knows, UnaryOp.type_ne_void _⟩
  | arithRight first | orderRight first | logicRight first | itemIndex first | setItemIndex first =>
    exact ⟨knows.after first tidy nofun, nofun⟩
  | comparisonRight compares first =>
    refine ⟨knows.after first tidy nofun, ?_⟩
    cases derivation with
    | comparison _ left leftValue =>
      obtain ⟨rfl, rfl⟩ := first.unique left
      exact leftValue
    | _ => cases compares
  | declare allocated =>
    obtain ⟨slots, -, rfl⟩ := allocate_ok allocated
    exact ⟨⟨knows.defined, knows.hosts, knows.drafted, knows.filled, knows.proper⟩, trivial⟩
  | branchBody condition | loopBody condition => exact ⟨knows.after condition tidy nofun, trivial⟩
  | branchOther condition inner =>
    exact ⟨(knows.after condition tidy nofun).after inner (condition.tidy tidy) trivial, trivial⟩
  | timesCount =>
    exact ⟨⟨knows.defined, knows.hosts, knows.drafted, knows.filled, knows.proper⟩, nofun⟩
  | timesBody amount first second =>
    obtain ⟨slots, -, rfl⟩ := allocateScratch_ok first
    obtain ⟨slots', -, rfl⟩ := allocateScratch_ok second
    have entered : t.Knows { c with scope := c.scope.enter } e :=
      ⟨knows.defined, knows.hosts, knows.drafted, knows.filled, knows.proper⟩
    have counted := entered.after amount tidy.enter nofun
    exact ⟨⟨counted.defined, counted.hosts, counted.drafted, counted.filled, counted.proper⟩,
      trivial⟩
  | setItemValue items place =>
    exact ⟨(knows.after items tidy nofun).after place (items.tidy tidy) nofun, trivial⟩
  | operand => exact ⟨knows, fun void => wants (Option.some.inj void)⟩
  | value =>
    refine ⟨knows, ?_⟩
    cases derivation with
    | valueOf _ _ filled => exact fun void => filled (Option.some.inj void)
    | valueFound => exact nofun
  | giveFound => exact ⟨knows, fun void => by simp [Option.filter_eq_some_iff] at void⟩
  | moreArguments _ first typed resolved =>
    have settled := (settleOpen_retyped resolved).steady
    have between := knows.after first tidy trivial
    have filled := settleOpen_filled resolved
      (fun void => first.value_ne_void (typed.trans (congrArg some void))) between.filled
    exact ⟨between.rest settled.grows filled (settled.scope ▸ between.proper), trivial⟩
  | moreItems first => exact ⟨knows.after first tidy trivial, trivial⟩
  | moreStatements first finished =>
    have settled := finishStatement_steady finished
    have scope : _ = _ := settled.scope
    have between := knows.after first tidy nofun
    exact ⟨between.rest settled.grows.of_prior
      (between.filled.of_eq (finishStatement_paramTypes finished)) (scope ▸ between.proper),
      trivial⟩
  | block =>
    exact ⟨⟨knows.defined, knows.hosts, knows.drafted, knows.filled, knows.proper⟩, trivial⟩
  | arithLeft | orderLeft | logicLeft | comparisonLeft | branchTest | loopTest | convert | itemList
  | setItemList | firstStatement => exact ⟨knows, nofun⟩
  | assignParam | assignVariable | call | giveBack | list | initial | giveDeclared | firstArgument
  | firstItem => exact ⟨knows, trivial⟩

/-- What is traded agrees with what is known at every place in a task. -/
theorem Occurs.knows (occurs : Occurs whole c offset task d) (derivation : Yields whole c x c')
    (since : before.Since c others) (wants : whole.WantsValue) (knows : t.Knows c c') :
    t.Knows d c' ∧ task.WantsValue := by
  induction occurs with
  | here => exact ⟨knows, wants⟩
  | part outer part ih =>
    obtain ⟨y, e, others', yields, since', -⟩ := outer.yields derivation since
    obtain ⟨knows', wants'⟩ := ih
    exact part.knows yields since'.tidy wants' knows'

/-- The code of an expression that is wanted for its value raises the stack by it. -/
theorem Occurs.levels {a : Node} {expected : Option Ty} {role : Role}
    (occurs : Occurs whole c offset (.value a expected role) d) (derivation : Yields whole c x c')
    (since : before.Since c others) (wants : whole.WantsValue) (knows : t.Knows c c')
    (made : Yields (.value a expected role) d y d') : y.code.Annotated t.heights 0 1 := by
  obtain ⟨z, e, others', yields, since', precedes⟩ := occurs.yields derivation since
  obtain ⟨rfl, rfl⟩ := made.unique yields
  have knows' := (occurs.knows derivation since wants knows).1.upTo precedes
  exact made.levels since'.tidy trivial knows' 0 trivial

/-- The codes of expressions that occur in a task stand one after another, from an offset on. -/
inductive Laid (whole : Task) (start : Compiler) : Nat → List Node → List Fragment → Prop
  | nil {offset : Nat} : Laid whole start offset [] []
  | cons {offset : Nat} {a : Node} {more : List Node} {want : Option Ty} {c c' : Compiler}
      {x : Compiled} {parts : List Fragment} (occurs : Occurs whole start offset (.node a want) c)
      (made : Yields (.node a want) c x c')
      (rest : Laid whole start (offset + x.code.size) more parts) :
      Laid whole start offset (a :: more) (x.code :: parts)

theorem Laid.length {nodes : List Node} {parts : List Fragment}
    (laid : Laid whole c offset nodes parts) : parts.length = nodes.length := by
  induction laid with
  | nil => rfl
  | cons _ _ _ ih => rw [List.length_cons, List.length_cons, ih]

/-- The code of a value is that of its expression. -/
theorem Yields.value_node {a : Node} {expected : Option Ty} {role : Role}
    (derivation : Yields (.value a expected role) c x c') :
    ∃ y d, Yields (.node a expected) c y d ∧ y.code = x.code := by
  cases derivation with
  | valueOf inner | valueFound inner => exact ⟨_, _, inner, rfl⟩

/-- The code of arguments is that of the expressions, one after another, each of which raises the
stack by a value. -/
theorem Yields.laid {callee : Callee} {position : Nat} {nodes : List Node}
    (made : Yields (.arguments callee position nodes) d y d')
    (occurs : Occurs whole c offset (.arguments callee position nodes) d)
    (derivation : Yields whole c x c') (since : before.Since c others) (wants : whole.WantsValue)
    (knows : t.Knows c c') :
    ∃ parts, y.code = sequence parts ∧ Laid whole c offset nodes parts ∧
      ∀ part ∈ parts, part.Annotated t.heights 0 1 := by
  induction nodes generalizing position d y offset with
  | nil =>
    cases made
    exact ⟨[], rfl, .nil, by simp⟩
  | cons a more ih =>
    cases made with
    | moreArguments wanted first typed resolved rest =>
      have placed := occurs.first (.firstArgument wanted)
      obtain ⟨parts, code, laid, each⟩ :=
        ih rest (occurs.part (.moreArguments wanted first typed resolved))
      obtain ⟨z, e, node, same⟩ := first.value_node
      refine ⟨z.code :: parts, by rw [sequence_cons, code, same],
        .cons (placed.first .value) node (same ▸ laid), ?_⟩
      intro part member
      rcases List.mem_cons.mp member with rfl | later
      · exact same ▸ placed.levels derivation since wants knows first
      · exact each part later

theorem Fragment.sequence_call (parts : List Fragment) (target : Nat) :
    sequence (parts ++ [[Instruction.call target]]) =
      sequence parts ++ [Instruction.call target] := by
  induction parts with
  | nil => rfl
  | cons part more ih =>
    rw [List.cons_append, sequence_cons, ih, sequence_cons, shift_append, List.append_assoc]
    rfl

/-- At a place in a task where a procedure is called, the codes of the arguments stand in front of
the call. Control comes there through the start of the first argument only. -/
theorem Task.CallSite.laid {address stop : Nat} {name : String}
    (site : whole.CallSite c address name d stop)
    (derivation : Yields whole c x c') (since : before.Since c others) (wants : whole.WantsValue)
    (knows : t.Knows c c') :
    ∃ place args want parts gives, Occurs whole c place (.node (.call name args) want) d ∧
      Laid whole c place args parts ∧ (∀ part ∈ parts, part.Annotated t.heights 0 1) ∧
      x.code.Encloses (sequence (parts ++ [[Instruction.call address]])) place ∧
      stop = place + size (sequence (parts ++ [[Instruction.call address]])) ∧
      t.Moves (.call address) args.length gives := by
  obtain ⟨⟨place, args, want, y, d', occurs, made, rfl⟩, callee, found, same⟩ := site
  obtain ⟨z, e, others', yields, since', precedes⟩ := occurs.yields derivation since
  obtain ⟨rfl, rfl⟩ := made.unique yields
  obtain ⟨z, e, node, encloses⟩ := occurs.encloses derivation since
  obtain ⟨rfl, rfl⟩ := made.unique node
  have knows' := (occurs.knows derivation since wants knows).1.upTo precedes
  cases made with
  | call found' arity given finished =>
    rw [found] at found'
    cases found'
    obtain ⟨code, -, assumes⟩ := finishCall_ok finished
    obtain ⟨parts, laidOut, laid, each⟩ :=
      given.laid (occurs.first (.call found)) derivation since wants knows
    rw [laidOut, same, ← sequence_call] at code
    obtain ⟨type, -, moves⟩ := (find_ok found).1.moves arity given
      (knows'.first assumes.retyped.steady.grows) (given.grows since'.tidy)
    rw [same, arity] at moves
    rw [code] at encloses ⊢
    exact ⟨place, args, want, parts, _, occurs, laid, each, encloses, rfl, moves⟩

end Primer
