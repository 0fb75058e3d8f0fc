import Primer.Proofs.Execution.Launch

/-!
The code of an expression leaves on the stack what the interpreter evaluates the expression to,
calls the host in the same way, and ends as the interpreter halts. It leaves the locals as they are.
-/

set_option autoImplicit false
set_option relaxedAutoImplicit false

namespace Primer

open Compile Interpreter

variable {σ : Type}

namespace Interpreter

theorem unaryValue_ok {op : UnaryOp} {a found : Option Value} (done : unaryValue op a = .ok found) :
    found ≠ none := by
  rintro rfl
  unfold unaryValue at done
  split at done <;> cases done

theorem arithValue_ok {op : Arith} {a b found : Option Value}
    (done : arithValue op a b = .ok found) : found ≠ none := by
  rintro rfl
  unfold arithValue at done
  split at done <;> cases done

theorem orderValue_ok {op : Order} {a b found : Option Value}
    (done : orderValue op a b = .ok found) : found ≠ none := by
  rintro rfl
  unfold orderValue at done
  split at done <;> cases done

theorem comparedValue_ok {op : BinaryOp} {a b found : Option Value}
    (done : comparedValue op a b = .ok found) : found ≠ none := by
  rintro rfl
  unfold comparedValue at done
  split at done
  · split at done <;> cases done
  · cases done

theorem convertedValue_ok {target : Ty} {a found : Option Value}
    (done : convertedValue target a = .ok found) : found ≠ none := by
  rintro rfl
  unfold convertedValue at done
  split at done
  · split at done
    · split at done <;> cases done
    · cases done
  · cases done

theorem itemValue_ok {type : Ty} {a b found : Option Value}
    (done : itemValue (some type) a b = .ok found) : found ≠ none := by
  rintro rfl
  unfold itemValue at done
  split at done
  · rename_i items index
    rcases place_cases index items with ⟨k, -, placed, -⟩ | ⟨missing, -⟩
    · simp only [known_some, placed, bind, Except.bind] at done
      split at done <;> cases done
    · simp only [known_some, missing, bind, Except.bind] at done
      cases done
  · cases done

/-- A call gives a value unless the procedure has none to give. -/
theorem callHost_ok {hosts : HostTable (StateM σ)} {name : String} {signature : Signature}
    {given : List Value} {w w' : σ} {found : Option Value}
    (done : callHost hosts name signature given w = (.ok found, w')) :
    found = none ↔ signature.returns = .void := by
  unfold callHost at done
  by_cases typed : given.map Value.type = signature.params
  · rw [if_pos typed] at done
    rcases answered : (hosts.call? name given).getD (pure (.ok none)) w with ⟨reply, after⟩
    rw [answered] at done
    have answer : answerValue name signature.returns reply = .ok found := congrArg Prod.fst done
    cases reply with
    | error reason => cases answer
    | ok value =>
      by_cases silent : signature.returns = .void
      · simp only [answerValue, if_pos silent, Except.ok.injEq] at answer
        exact ⟨fun _ => silent, fun _ => answer.symm⟩
      · simp only [answerValue, if_neg silent] at answer
        cases value with
        | none => cases answer
        | some value =>
          simp only at answer
          split at answer
          · cases answer
            exact ⟨fun empty => (by cases empty), fun void => absurd void silent⟩
          · cases answer
  · rw [if_neg typed] at done
    cases done

end Interpreter

theorem Value.type_ne_void_of_check {value : Value} (passes : value.check = .ok ()) :
    value.type ≠ .void := by
  cases value with
  | void => cases passes
  | _ => simp [Value.type]

theorem Ty.ne_void_of_convertsTo {source target : Ty} (converts : source.convertsTo target = true)
    (filled : source ≠ .void) : target ≠ .void := by
  rintro rfl
  cases source <;> simp_all [Ty.convertsTo]

theorem BinaryOp.comparison_straight {op : BinaryOp} {i : Instruction}
    (compares : op.comparison? = some i) : i.jump? = none ∧ ∀ slot, i ≠ .load slot := by
  cases op with
  | equal | notEqual =>
    cases compares
    exact ⟨rfl, by simp⟩
  | _ => cases compares

namespace Launch

variable {launch : Launch σ} {start : Nat} {locals : Locals} {store : Store} {c : Compiler}

/-- A single value is left on the stack. -/
def Single (found : Option Value) (values : List Value) : Prop :=
  ∃ value, found = some value ∧ values = [value]

variable (launch) in
/-- From an address on, the code of a task does what the interpreter does. -/
def Simulates (start : Nat) (locals : Locals) (store : Store) : Task → Compiler → Compiled → Prop
  | .node n want, c, x => n.isExpression = true →
    launch.Carries start (start + x.code.size) locals []
      (evaluate launch.rules store c.prior n want)
      fun found values => values = found.toList ∧ (found = none ↔ x.type = some .void)
  | .operand n want _, c, x => want ≠ .void →
    launch.Carries start (start + x.code.size) locals []
      (evaluate launch.rules store c.prior n (some want)) Single
  | .value n expected _, c, x =>
    launch.Carries start (start + x.code.size) locals []
      (evaluate launch.rules store c.prior n expected) Single
  | .arguments callee position nodes, c, x => ∀ name signature, callee = .host name signature →
    launch.Carries start (start + x.code.size) locals []
      (evaluateArguments launch.rules store c.prior signature.params position nodes)
      fun given values => values = given.reverse ∧ given.length = nodes.length
  | .items _ nodes, c, x =>
    launch.Carries start (start + x.code.size) locals []
      (evaluateItems launch.rules store c.prior nodes)
      fun given values => values = given.reverse ∧ given.length = nodes.length
  | _, _, _ => True

/-- Something is computed from the values on the stack, and it is a value. -/
theorem carries_value {ip : Nat} {given : List Value} {i : Instruction} {type : Ty}
    {outcome : Except Halt (Option Value)} (settled : launch.Settled locals)
    (computes : Plan.Computes i given outcome) (fetches : launch.base.code.Fetches ip i)
    (quiet : ∀ slot, i ≠ .load slot) (isValue : type ≠ .void)
    (filled : ∀ found, outcome = .ok found → found ≠ none) :
    launch.Carries ip (ip + i.size) locals given (conclude outcome)
      fun found values => values = found.toList ∧ (found = none ↔ some type = some .void) := by
  refine (carries_compute settled computes fetches quiet).imp fun found values makes => ?_
  refine ⟨makes.2, fun empty => absurd empty (filled found makes.1), fun void => ?_⟩
  exact absurd (Option.some.inj void) isValue

theorem carries_push {ip : Nat} {value : Value} (settled : launch.Settled locals)
    (fetches : launch.base.code.Fetches ip (.push value)) (isValue : value.type ≠ .void) :
    launch.Carries ip (ip + (Instruction.push value).size) locals [] (pure (some value))
      fun found values => values = found.toList ∧ (found = none ↔ some value.type = some .void) :=
  carries_value settled (Plan.computes_push value) fetches (by simp) isValue (by simp)

/-- What has a type other than void leaves a single value. -/
theorem Simulates.single {n : Node} {want : Option Ty} {x : Compiled}
    (simulates : launch.Simulates start locals store (.node n want) c x)
    (isExpression : n.isExpression = true) (filled : x.type ≠ some .void) :
    launch.Carries start (start + x.code.size) locals []
      (evaluate launch.rules store c.prior n want) Single := by
  refine (simulates isExpression).imp fun found values makes => ?_
  obtain ⟨rfl, shaped⟩ := makes
  cases found with
  | none => exact absurd (shaped.mp rfl) filled
  | some value => exact ⟨value, rfl, rfl⟩

/-- Two operands, and an instruction on their values. -/
theorem carries_pair {start : Nat} {x y : Compiled} {i : Instruction} {type : Ty}
    {first second : Evaluate σ (Option Value)}
    {combine : Option Value → Option Value → Except Halt (Option Value)}
    (left : launch.Carries start (start + x.code.size) locals [] first Single)
    (right :
      launch.Carries (start + x.code.size) (start + x.code.size + y.code.size) locals [] second
      Single)
    (settled : launch.Settled locals)
    (fetches : launch.base.code.Fetches (start + x.code.size + y.code.size) i)
    (quiet : ∀ slot, i ≠ .load slot) (isValue : type ≠ .void)
    (computes : ∀ a b, Plan.Computes i [b, a] (combine (some a) (some b)))
    (filled : ∀ a b found, combine a b = .ok found → found ≠ none) :
    launch.Carries start (start + x.code.size + y.code.size + i.size) locals []
      (do
        let a ← first
        let b ← second
        conclude (combine a b))
      fun found values => values = found.toList ∧ (found = none ↔ some type = some .void) := by
  refine left.bind fun _ _ => ?_
  rintro ⟨a, rfl, rfl⟩
  refine (right.frame [a]).bind fun _ _ => ?_
  rintro ⟨_, rfl, b, rfl, rfl⟩
  exact carries_value settled (computes a b) fetches quiet isValue (filled _ _)

theorem size_pair (x y : Fragment) (i : Instruction) :
    start + (Fragment.sequence [x, y, [i]]).size = start + x.size + y.size + i.size := by
  simp [Nat.add_assoc]

/-- Where the parts of code for two operands stand. -/
theorem places_pair {code : Bytecode} {x y : Fragment} {i : Instruction}
    (placed : code.Places start (Fragment.sequence [x, y, [i]])) (straight : i.jump? = none) :
    code.Places start x ∧ code.Places (start + x.size) y ∧
      code.Fetches (start + x.size + y.size) i := by
  obtain ⟨first, rest⟩ := placed.cons
  obtain ⟨second, last⟩ := rest.cons
  have fetches := last.single
  rw [Instruction.shift_of_straight straight] at fetches
  exact ⟨first, second, fetches⟩

theorem simulates_unary {op : UnaryOp} {a : Node} {want : Option Ty} {x : Compiled}
    (settled : launch.Settled locals)
    (placed : launch.base.code.Places start (x.code ++ [op.instruction]))
    (operand : launch.Simulates start locals store (.operand a op.type op.role) c x) :
    launch.Simulates start locals store (.node (.unary op a) want) c
      ⟨some op.type, x.code ++ [op.instruction]⟩ := by
  intro _
  have fetches := placed.fetches rfl
  rw [Instruction.shift_of_straight (by cases op <;> rfl)] at fetches
  rw [evaluate, Fragment.size_append, ← Nat.add_assoc]
  refine (operand op.type_ne_void).bind fun found values => ?_
  rintro ⟨value, rfl, rfl⟩
  exact carries_value settled (Plan.computes_unary op value) fetches
    (by cases op <;> simp [UnaryOp.instruction]) op.type_ne_void fun _ => unaryValue_ok

theorem simulates_logic {op : Logic} {a b : Node} {want : Option Ty} {x y : Compiled}
    (settled : launch.Settled locals)
    (placed : launch.base.code.Places start (Fragment.shortCircuit op x.code y.code))
    (left : launch.Simulates start locals store (.operand a .boolean (.operand (.logic op))) c x)
    (right : launch.Simulates (start + Fragment.rightStart op x.code) locals store
      (.operand b .boolean (.operand (.logic op))) c y) :
    launch.Simulates start locals store (.node (.binary (.logic op) a b) want) c
      ⟨some .boolean, Fragment.shortCircuit op x.code y.code⟩ := by
  intro _ stack count w good bad
  obtain ⟨deciding, decision, second, jump, push⟩ := Fragment.places_shortCircuit placed
  have fits := placed.fits
  simp only [evaluate] at good bad
  simp only [Fragment.size_shortCircuit] at good fits
  refine left (by simp) stack count w (fun found w' values later done makes more => ?_)
    fun halt w' done => bad halt w' (Evaluate.bind_error done)
  obtain ⟨value, rfl, rfl⟩ := makes
  refine leads_decision settled deciding decision (by omega) ?_ ?_ fun other => ?_
  · rintro v later' more' rfl decides
    -- The value of the left side is also the one that is pushed.
    have same : v = decide (op = .or) := by cases op <;> cases v <;> simp_all [Logic.decides]
    have next := good (some (.boolean v)) w' [.boolean v] (later' + 1)
      (by rw [Evaluate.bind_ok done]; simp only [if_pos decides]; rfl) ⟨rfl, by simp⟩ (by omega)
    rw [Nat.add_comm _ start]
    refine Plan.leads_compute [] (Plan.computes_push _) push
      (settled.watched push (by simp) _ _) (fun made done' => ?_) fun _ failed => by cases failed
    cases done'
    rw [same] at next
    rwa [← Nat.add_assoc] at next
  · rintro v later' more' rfl decides
    have falls : ¬op.decides v = true := by simp [decides]
    refine right (by simp) stack later' w' (fun found w'' values last done' makes more'' => ?_)
      fun halt w'' done' => bad halt w'' ?_
    · obtain ⟨result, rfl, rfl⟩ := makes
      have next := good (some result) w'' [result] (last + 1)
        (by rw [Evaluate.bind_ok done]; simp only [if_neg falls]; exact done') ⟨rfl, by simp⟩
        (by omega)
      rw [Nat.add_assoc start]
      refine Plan.leads_jump ?_ jump (settled.watched jump (by simp) _ _) ?_
      · show _ ≤ launch.base.code.size
        omega
      · rwa [Nat.add_comm _ start]
    · rw [Evaluate.bind_ok done]
      simp only [if_neg falls]
      exact done'
  · refine bad .stuck w' ?_
    rw [Evaluate.bind_ok done]
    cases value with
    | boolean b => exact absurd rfl (other b)
    | _ => rfl

variable {offset : Nat}

theorem simulates_var {name : String} {want : Option Ty} {found : Variable}
    (agrees : Agrees c.scope locals store)
    (site : launch.Site offset (.node (.var name) want) c [.load found.slot])
    (known : c.scope.find? name = some found) :
    launch.Simulates (launch.entry + offset) locals store (.node (.var name) want) c
      ⟨some found.type, [.load found.slot]⟩ := by
  intro _ stack count w good bad
  obtain ⟨value, held, filled, typed, isValue⟩ := agrees.find known
  have fetches : launch.base.code.Fetches (launch.entry + offset) (.load found.slot) :=
    site.placed.head
  have reading : Reading launch.program launch.before offset found.slot locals :=
    ⟨found.type, value, .variable site.occurs known rfl, filled, .inl typed⟩
  refine Plan.leads_load filled fetches ((site.settled agrees).watched_load fetches reading _ _) ?_
  refine good (some value) w [value] (count + 1) ?_ ⟨rfl, ?_⟩ (Nat.le_succ count)
  · rw [evaluate, held]
    rfl
  · simp [isValue]

/-- The result is read as it is. In the test of a loop it may be of another type by then. -/
theorem simulates_result {want : Option Ty} (agrees : Agrees c.scope locals store)
    (site : launch.Site offset (.node .result want) c [.load resultSlot])
    (fresh : launch.Fresh offset (.node .result want) c locals) (available : c.prior ≠ .void) :
    launch.Simulates (launch.entry + offset) locals store (.node .result want) c
      ⟨some c.prior, [.load resultSlot]⟩ := by
  intro _ stack count w good bad
  have fetches : launch.base.code.Fetches (launch.entry + offset) (.load resultSlot) :=
    site.placed.head
  rw [evaluate] at good bad
  obtain ⟨value, filled, typed⟩ := fresh available
  by_cases misread : (launch.rules.strict && decide (value.type ≠ c.prior)) = true
  · have halts : resultValue launch.rules.strict c.prior store.result = .error .misread := by
      rw [← agrees.result, filled, resultValue, if_pos misread]
    have settles := bad .misread w (by rw [halts]; rfl)
    simp only [Bool.and_eq_true, decide_eq_true_eq] at misread
    have retested := typed.resolve_left misread.2
    exact .here
      (settles _ rfl ⟨misread.1, offset, rfl, want, c, value, retested, filled, misread.2⟩)
  · have gives : resultValue launch.rules.strict c.prior store.result = .ok (some value) := by
      rw [← agrees.result, filled, resultValue, if_neg misread]
    have reading : Reading launch.program launch.before offset resultSlot locals :=
      ⟨c.prior, value, .result site.occurs rfl, filled,
        typed.imp_right fun retested => ⟨want, c, rfl, rfl, retested⟩⟩
    refine Plan.leads_load filled fetches ((site.settled agrees).watched_load fetches reading _ _)
      ?_
    exact good (some value) w [value] (count + 1) (by rw [gives]; rfl) ⟨rfl, by simp [available]⟩
      (Nat.le_succ count)

theorem simulates_call {name : String} {args : List Node} {want : Option Ty} {signature : Signature}
    {x : Compiled} (settled : launch.Settled locals)
    (placed : launch.base.code.Places start (x.code ++ [Instruction.callHost name]))
    (known : launch.rules.hosts.signature? name = some signature)
    (arity : signature.params.length = args.length)
    (given : launch.Simulates start locals store (.arguments (.host name signature) 0 args) c x) :
    launch.Simulates start locals store (.node (.call name args) want) c
      ⟨some signature.returns, x.code ++ [Instruction.callHost name]⟩ := by
  intro _
  have fetches : launch.base.code.Fetches (start + x.code.size) (.callHost name) :=
    placed.fetches rfl
  rw [evaluate, known, Fragment.size_append, ← Nat.add_assoc]
  refine (given name signature rfl).bind fun arguments values => ?_
  rintro ⟨rfl, length⟩ stack count w good bad
  refine Plan.leads_callHost known (length.trans arity.symm) fetches
    (settled.watched fetches (by simp) _ _) (fun made w' done => ?_) bad
  exact good made w' _ (count + 1) done ⟨rfl, by simpa using callHost_ok done⟩ (Nat.le_succ count)

theorem simulates_list {nodes : List Node} {want : Option Ty} {x : Compiled}
    (settled : launch.Settled locals)
    (placed :
      launch.base.code.Places start (x.code ++ [Instruction.makeList (UInt16.ofNat nodes.length)]))
    (short : EncodeFault.checkLength .list nodes.length = .ok ())
    (items : launch.Simulates start locals store (.items 0 nodes) c x) :
    launch.Simulates start locals store (.node (.list nodes) want) c
      ⟨some .list, x.code ++ [Instruction.makeList (UInt16.ofNat nodes.length)]⟩ := by
  intro _
  have fetches : launch.base.code.Fetches (start + x.code.size)
      (.makeList (UInt16.ofNat nodes.length)) := placed.fetches rfl
  have fewer := Value.checkLength_ok short
  rw [evaluate, Fragment.size_append, ← Nat.add_assoc]
  refine items.bind fun values => ?_
  rintro _ ⟨rfl, length⟩
  have makes := Plan.computes_counted length fewer
  exact carries_value settled makes fetches (by simp) (by simp) (by simp)

theorem simulates_moreArguments {name : String} {signature : Signature} {position : Nat} {a : Node}
    {more : List Node} {role : Role} {x y : Compiled}
    (first : launch.Simulates start locals store (.value a signature.params[position]? role) c x)
    (rest : launch.Simulates (start + x.code.size) locals store
      (.arguments (.host name signature) (position + 1) more) c y) :
    launch.Simulates start locals store (.arguments (.host name signature) position (a :: more)) c
      ⟨none, x.code ++ y.code.shift x.code.size⟩ := by
  rintro _ _ ⟨⟩
  rw [evaluateArguments, Fragment.size_append, Fragment.size_shift, ← Nat.add_assoc]
  refine first.bind fun _ _ => ?_
  rintro ⟨value, rfl, rfl⟩
  rw [known_some, conclude_ok_bind]
  refine ((rest name signature rfl).frame [value]).bind fun values _ => ?_
  rintro ⟨_, rfl, rfl, length⟩
  exact .pure ⟨by simp, by simp [length]⟩

theorem simulates_moreItems {position : Nat} {a : Node} {more : List Node} {role : Role}
    {x y : Compiled} (first : launch.Simulates start locals store (.value a none role) c x)
    (rest : launch.Simulates (start + x.code.size) locals store (.items (position + 1) more) c y) :
    launch.Simulates start locals store (.items position (a :: more)) c
      ⟨none, x.code ++ y.code.shift x.code.size⟩ := by
  rw [Simulates, evaluateItems, Fragment.size_append, Fragment.size_shift, ← Nat.add_assoc]
  refine first.bind fun _ _ => ?_
  rintro ⟨value, rfl, rfl⟩
  rw [known_some, conclude_ok_bind]
  refine (Carries.frame rest [value]).bind fun values _ => ?_
  rintro ⟨_, rfl, rfl, length⟩
  exact .pure ⟨by simp, by simp [length]⟩

end Launch

open Launch in
/-- The code of an expression does what the interpreter does, wherever it stands in a unit. -/
theorem Yields.simulates {launch : Launch σ} {locals : Locals} {store : Store} {task : Task}
    {c c' : Compiler} {x : Compiled} {offset : Nat} (derivation : Yields task c x c')
    (agrees : Agrees c.scope locals store) (site : launch.Site offset task c x.code)
    (fresh : launch.Fresh offset task c locals) :
    launch.Simulates (launch.entry + offset) locals store task c x := by
  induction derivation generalizing offset with
  | literal passes =>
    intro _
    rw [evaluate, Fragment.size_cons]
    exact carries_push (site.settled agrees) site.placed.head
      (Value.type_ne_void_of_check passes)
  | unary _ operand =>
    exact simulates_unary (site.settled agrees) site.placed
      (operand agrees (site.first site.toInside .unary site.placed.left) (fresh.first .unary))
  | @arith op a b _ _ _ _ _ _ left right first second =>
    intro _
    have same := left.unchanged site.plain.outside (by simp [Task.Evaluates])
    subst same
    obtain ⟨x', y', fetches⟩ := places_pair site.placed rfl
    have one := first agrees (site.first site.toInside .arithLeft x') (fresh.first .arithLeft)
    have two :=
      second agrees (site.part site.toInside (.arithRight left) y') (fresh.part (.arithRight left))
    rw [← Nat.add_assoc] at two
    rw [evaluate, size_pair]
    exact carries_pair (one (by simp)) (two (by simp)) (site.settled agrees) fetches
      (by simp) (by simp) (Plan.computes_arith op) fun _ _ _ => arithValue_ok
  | @order op a b _ _ _ _ _ _ left right first second =>
    intro _
    have same := left.unchanged site.plain.outside (by simp [Task.Evaluates])
    subst same
    obtain ⟨x', y', fetches⟩ := places_pair site.placed rfl
    have one := first agrees (site.first site.toInside .orderLeft x') (fresh.first .orderLeft)
    have two :=
      second agrees (site.part site.toInside (.orderRight left) y') (fresh.part (.orderRight left))
    rw [← Nat.add_assoc] at two
    rw [evaluate, size_pair]
    exact carries_pair (one (by simp)) (two (by simp)) (site.settled agrees) fetches
      (by simp) (by simp) (Plan.computes_order op) fun _ _ _ => orderValue_ok
  | logic left right first second =>
    have same := left.unchanged site.plain.outside (by simp [Task.Evaluates])
    subst same
    obtain ⟨deciding, -, y', -⟩ := Fragment.places_shortCircuit site.placed
    have one := first agrees
      (site.first site.toInside .logicLeft (Fragment.places_deciding deciding))
      (fresh.first .logicLeft)
    have two :=
      second agrees (site.part site.toInside (.logicRight left) y') (fresh.part (.logicRight left))
    rw [← Nat.add_assoc] at two
    exact simulates_logic (site.settled agrees) site.placed one two
  | @comparison op i a b _ _ x _ y _ _ compares left leftValue right rightValue agreed
      first second =>
    intro _
    have same := left.unchanged site.plain.outside (left.isExpression leftValue)
    subst same
    have leftType := left.type_eq site.plain agrees.describes
    obtain ⟨straight, quiet⟩ := BinaryOp.comparison_straight compares
    have shape : Fragment.sequence [x.code, y.code] ++ [i] =
        Fragment.sequence [x.code, y.code, [i]] := by
      simp [Instruction.shift_of_straight straight]
    have placed := site.placed
    simp only [shape] at placed ⊢
    obtain ⟨x', y', fetches⟩ := places_pair placed straight
    have one := first agrees (site.first site.toInside (.comparisonLeft compares) x')
      (fresh.first (.comparisonLeft compares))
    have two := second agrees (site.part site.toInside (.comparisonRight compares left) y')
      (fresh.part (.comparisonRight compares left))
    rw [← Nat.add_assoc] at two
    rw [evaluate_comparison compares, size_pair]
    rw [leftType] at two
    exact carries_pair (one.single (left.isExpression leftValue) leftValue)
      (two.single (right.isExpression rightValue) rightValue) (site.settled agrees) fetches quiet
      (by simp) (Plan.computes_comparison compares) fun _ _ _ => comparedValue_ok
  | result available found =>
    obtain ⟨-, rfl, -⟩ | ⟨draft, inside, -⟩ | ⟨draft, -, inside, -⟩ := resultSlot_ok found
    · exact simulates_result agrees site fresh available
    · rw [site.plain.outside] at inside
      cases inside
    · rw [site.plain.outside] at inside
      cases inside
  | var found =>
    obtain ⟨known', listed, rfl⟩ := reference_plain site.plain.outside found
    exact simulates_var agrees site listed
  | call found arity arguments finished given =>
    obtain ⟨signature, rfl, known'⟩ := site.plain.callee found
    have same := arguments.unchanged site.plain.outside trivial
    subst same
    obtain rfl := finishHostCall_ok finished
    exact simulates_call (site.settled agrees) site.placed known' arity
      (given agrees (site.first site.toInside (.call found) site.placed.left)
        (fresh.first (.call found)))
  | @convert a target _ _ x source _ inner typed filled converts ih =>
    intro _
    have isValue : x.type ≠ some .void := by rw [typed]; simpa using filled
    have operand :=
      ih agrees (site.first site.toInside .convert site.placed.left) (fresh.first .convert)
    rw [evaluate, Fragment.size_append, ← Nat.add_assoc]
    refine (operand.single (inner.isExpression isValue) isValue).bind fun _ _ => ?_
    rintro ⟨value, rfl, rfl⟩
    exact carries_value (site.settled agrees) (Plan.computes_convert target value)
      (site.placed.fetches rfl) (by simp) (Ty.ne_void_of_convertsTo converts filled)
      fun _ => convertedValue_ok
  | literals all passes =>
    intro _
    rw [evaluate, evaluateItems_literals all, Fragment.size_cons]
    exact carries_push (site.settled agrees) site.placed.head
      (Value.type_ne_void_of_check passes)
  | list mixed short _ ih =>
    exact simulates_list (site.settled agrees) site.placed short
      (ih agrees (site.first site.toInside (.list mixed) site.placed.left)
        (fresh.first (.list mixed)))
  | @item index list type _ _ _ _ _ filled left right first second =>
    intro _
    have same := left.unchanged site.plain.outside (by simp [Task.Evaluates])
    subst same
    obtain ⟨x', y', fetches⟩ := places_pair site.placed rfl
    have one := first agrees (site.first site.toInside .itemList x') (fresh.first .itemList)
    have two :=
      second agrees (site.part site.toInside (.itemIndex left) y') (fresh.part (.itemIndex left))
    rw [← Nat.add_assoc] at two
    rw [evaluate, size_pair]
    exact carries_pair (one (by simp)) (two (by simp)) (site.settled agrees) fetches
      (by simp) filled (Plan.computes_item type) fun _ _ _ => itemValue_ok
  | operand inner expected ih =>
    intro isValue
    have filled := expected_value expected isValue
    exact (ih agrees (site.first site.toInside .operand site.placed) (fresh.first .operand)).single
      (inner.isExpression filled) filled
  | valueOf inner expected isValue ih =>
    have filled := expected_value expected isValue
    exact (ih agrees (site.first site.toInside .value site.placed) (fresh.first .value)).single
      (inner.isExpression filled) filled
  | @valueFound _ _ _ x _ _ inner typed isValue ih =>
    have filled : x.type ≠ some .void := by rw [typed]; simpa using isValue
    exact (ih agrees (site.first site.toInside .value site.placed) (fresh.first .value)).single
      (inner.isExpression filled) filled
  | noArguments =>
    intro name signature _
    rw [evaluateArguments]
    exact .pure ⟨rfl, rfl⟩
  | moreArguments wanted value typed resolved others first rest =>
    rintro name signature rfl
    have same := value.unchanged site.plain.outside trivial
    subst same
    have settled := (settleOpen_retyped resolved).eq_of_outside site.plain.outside
    subst settled
    have one := first agrees (site.first site.toInside (.firstArgument wanted) site.placed.left)
      (fresh.first (.firstArgument wanted))
    have two := rest agrees (site.part site.toInside (.moreArguments wanted value typed resolved)
      (site.placed.last rfl)) (fresh.part (.moreArguments wanted value typed resolved))
    rw [← Nat.add_assoc] at two
    rw [Callee.expected_host wanted] at one
    exact simulates_moreArguments one two name signature rfl
  | noItems =>
    rw [Simulates, evaluateItems]
    exact .pure ⟨rfl, rfl⟩
  | moreItems value others first rest =>
    have same := value.unchanged site.plain.outside trivial
    subst same
    have one :=
      first agrees (site.first site.toInside .firstItem site.placed.left) (fresh.first .firstItem)
    have two := rest agrees (site.part site.toInside (.moreItems value) (site.placed.last rfl))
      (fresh.part (.moreItems value))
    rw [← Nat.add_assoc] at two
    exact simulates_moreItems one two
  | initialValue | initialDefault | giveNothing | giveDeclared | giveFound | noStatements
  | moreStatements | block => trivial
  | _ => intro impossible; cases impossible

end Primer
