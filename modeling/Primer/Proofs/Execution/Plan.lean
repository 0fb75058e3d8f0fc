import Primer.Proofs.Compilation.Derivation
import Primer.Proofs.Execution.Turn
import Primer.Proofs.Meaning.Typing
import Primer.Proofs.Walk

/-!
Plans for runs. A plan says what the machines that a run passes have to satisfy, where the run may
be left, and how it may end; a run leads to its plan if it does so. A run may exceed a limit at any
point, so that the plan says nothing of what comes then.

The rules for single instructions are those by which code is shown to keep to a plan.
-/

set_option autoImplicit false
set_option relaxedAutoImplicit false

namespace Primer

open Interpreter

variable {σ : Type}

/-- What a run is to do. -/
structure Plan (σ : Type) where
  hosts : HostTable (StateM σ)
  /-- The machine at the start of the run. -/
  base : Machine
  /-- Holds of every machine that takes a step. -/
  passes : Machine → Prop
  arrives : Machine → σ → Prop
  ends : Finished → σ → Prop
  /-- How many rounds the interpreter allows to loops. -/
  rounds : Nat
  /-- The machine is about to read a result of another type than was found for it. -/
  misreads : Machine → Prop

namespace Plan

/-- The machine of the run at a place. -/
def state (plan : Plan σ) (ip : Nat) (stack : List Value) (locals : Locals) (count : Nat) :
    Machine :=
  { plan.base with ip, stack, locals, steps := plan.base.steps + count }

/-- The machine of the run after a failure. -/
def fallen (plan : Plan σ) (ip : Nat) (locals : Locals) (count : Nat) : Machine :=
  { plan.base with ip, stack := [], calls := [], locals, steps := plan.base.steps + count }

/-- The run from a machine keeps to the plan. -/
inductive Leads (plan : Plan σ) : Machine → σ → Prop
  | here {m : Machine} {w : σ} (arrived : plan.arrives m w) : Leads plan m w
  | limit {m : Machine} {w : σ} {mishap : Mishap} (inside : m.ip < m.code.size)
      (exceeds : Machine.exceeded? { m with steps := m.steps + 1 } = some mishap)
      (passed : plan.passes m) : Leads plan m w
  | turn {m next : Machine} {w w' : σ} (passed : plan.passes m)
      (turns : m.turn plan.hosts w = (.inl next, w')) (rest : Leads plan next w') : Leads plan m w
  | stop {m : Machine} {finished : Finished} {w w' : σ} (passed : plan.passes m)
      (turns : m.turn plan.hosts w = (.inr finished, w')) (ended : plan.ends finished w') :
      Leads plan m w

/-- How the plan lets a run end when the interpreter halts. -/
def Settles (plan : Plan σ) (locals : Locals) : Halt → σ → Prop
  | .mishap x, w => ∀ ip count,
    plan.ends ⟨plan.fallen ip locals count, some (.runtime x plan.base.calls.reverse)⟩ w
  | .stuck, w => ∀ ip count fault offset,
    plan.ends ⟨plan.fallen ip locals count, some (.fatal fault offset)⟩ w
  | .misread, w => ∀ m, m.locals = locals → plan.misreads m → plan.arrives m w
  | .exhausted, w => ∀ ip stack count, plan.rounds ≤ count →
    plan.arrives (plan.state ip stack locals count) w

end Plan

/-- An instruction starts at an offset. -/
def Bytecode.Fetches (code : Bytecode) (ip : Nat) (i : Instruction) : Prop :=
  code.decodeAt ip = .ok (i, ip + i.size) ∧ ip < code.size

theorem Bytecode.Spells.fetches {code : Bytecode} {base offset : Nat} {fragment : Fragment}
    {i : Instruction} (spells : code.Spells base fragment) (found : fragment.at? offset = some i) :
    code.Fetches (base + offset) i := by
  have within := Fragment.lt_size_of_at? found
  have positive := i.size_pos
  have fits := spells.fits
  exact ⟨spells.decodes offset i found, by omega⟩

namespace Plan

variable {plan : Plan σ} {ip count : Nat} {stack : List Value} {locals : Locals} {i : Instruction}
  {w : σ}

/-- The step at an instruction: either a limit is exceeded, or the instruction is carried out. -/
theorem step_state (fetches : plan.base.code.Fetches ip i) (hosts : String → Option Signature)
    (stack : List Value) (locals : Locals) (count : Nat) :
    (∃ mishap, Machine.exceeded? (plan.state ip stack locals (count + 1)) = some mishap) ∨
      (plan.state ip stack locals count).step hosts =
        match (plan.state (ip + i.size) stack locals (count + 1)).execute hosts i with
        | .ok (.next m) => .running m
        | .ok (.halt m) => .halted m
        | .ok (.request call m) => .calling call m
        | .error trouble =>
          (plan.state (ip + i.size) stack locals (count + 1)).fail ip trouble := by
  obtain ⟨decoded, inside⟩ := fetches
  cases exceeds : Machine.exceeded? (plan.state ip stack locals (count + 1)) with
  | some mishap => exact .inl ⟨mishap, rfl⟩
  | none =>
    right
    have here :
        (plan.state ip stack locals count).ip < (plan.state ip stack locals count).code.size :=
      inside
    have counted : { plan.state ip stack locals count with
        steps := (plan.state ip stack locals count).steps + 1 } =
        plan.state ip stack locals (count + 1) := rfl
    have found : (plan.state ip stack locals count).code.decodeAt
        (plan.state ip stack locals count).ip = .ok (i, ip + i.size) := decoded
    rw [Machine.step, if_pos here]
    simp only [counted, exceeds, found]
    rfl

/-- An instruction is carried out and the run goes on. -/
theorem leads_next {after : Machine} (fetches : plan.base.code.Fetches ip i)
    (passed : plan.passes (plan.state ip stack locals count))
    (done : (plan.state (ip + i.size) stack locals (count + 1)).execute plan.hosts.signature? i =
      .ok (.next after))
    (rest : plan.Leads after w) : plan.Leads (plan.state ip stack locals count) w := by
  rcases step_state fetches plan.hosts.signature? stack locals count with
    ⟨mishap, exceeds⟩ | stepped
  · exact .limit fetches.2 exceeds passed
  · rw [done] at stepped
    refine .turn passed ?_ rest
    rw [Machine.turn, stepped]

/-- An instruction cannot be carried out. -/
theorem leads_trouble {trouble : Trouble} (fetches : plan.base.code.Fetches ip i)
    (passed : plan.passes (plan.state ip stack locals count))
    (done : (plan.state (ip + i.size) stack locals (count + 1)).execute plan.hosts.signature? i =
      .error trouble)
    (ended : match trouble with
      | .mishap x => plan.Settles locals (.mishap x) w
      | .fault _ => plan.Settles locals .stuck w) :
    plan.Leads (plan.state ip stack locals count) w := by
  rcases step_state fetches plan.hosts.signature? stack locals count with
    ⟨mishap, exceeds⟩ | stepped
  · exact .limit fetches.2 exceeds passed
  · rw [done] at stepped
    cases trouble with
    | mishap x =>
      refine .stop passed ?_ (ended (ip + i.size) (count + 1))
      rw [Machine.turn, stepped]
      rfl
    | fault fault =>
      refine .stop passed ?_ (ended (ip + i.size) (count + 1) fault ip)
      rw [Machine.turn, stepped]
      rfl

/-- On some values on top of the stack, an instruction does what the interpreter concludes. -/
def Computes (i : Instruction) (given : List Value) : Except Halt (Option Value) → Prop
  | .ok made => ∀ hosts (m : Machine) stack, m.stack = given ++ stack →
    m.execute hosts i = .ok (.next { m with stack := made.toList ++ stack })
  | .error (.mishap x) => ∀ hosts (m : Machine) stack, m.stack = given ++ stack →
    m.execute hosts i = .error (.mishap x)
  | .error .stuck => ∀ hosts (m : Machine) stack, m.stack = given ++ stack →
    ∃ fault, m.execute hosts i = .error (.fault fault)
  | .error _ => False

theorem leads_compute (given : List Value) {outcome : Except Halt (Option Value)}
    (computes : Computes i given outcome) (fetches : plan.base.code.Fetches ip i)
    (passed : plan.passes (plan.state ip (given ++ stack) locals count))
    (good : ∀ made, outcome = .ok made →
      plan.Leads (plan.state (ip + i.size) (made.toList ++ stack) locals (count + 1)) w)
    (bad : ∀ halt, outcome = .error halt → plan.Settles locals halt w) :
    plan.Leads (plan.state ip (given ++ stack) locals count) w := by
  match outcome, computes, good, bad with
  | .ok made, computes, good, _ =>
    exact leads_next fetches passed (computes _ _ _ rfl) (good made rfl)
  | .error (.mishap x), computes, _, bad =>
    exact leads_trouble fetches passed (computes _ _ _ rfl) (bad _ rfl)
  | .error .stuck, computes, _, bad =>
    obtain ⟨fault, done⟩ := computes plan.hosts.signature?
      (plan.state (ip + i.size) (given ++ stack) locals (count + 1)) stack rfl
    exact leads_trouble fetches passed done (bad _ rfl)

theorem computes_push (value : Value) : Computes (.push value) [] (.ok (some value)) := by
  intro hosts m stack same
  rw [List.nil_append] at same
  rw [Machine.execute, Machine.push, same]
  rfl

section Computes

attribute [local simp] Machine.execute Stack.pop Stack.popNumber Stack.popBoolean Stack.popList
  Stack.popSame bind Except.bind pure Except.pure throw throwThe MonadExceptOf.throw

theorem computes_unary (op : UnaryOp) (a : Value) :
    Computes op.instruction [a] (unaryValue op (some a)) := by
  cases op <;> cases a <;> intro hosts m stack same <;> simp [UnaryOp.instruction, same]

theorem computes_arith (op : Arith) (a b : Value) :
    Computes (.arith op) [b, a] (arithValue op (some a) (some b)) := by
  cases a <;> cases b <;> intro hosts m stack same <;> simp [same]

theorem computes_order (op : Order) (a b : Value) :
    Computes (.order op) [b, a] (orderValue op (some a) (some b)) := by
  cases a <;> cases b <;> intro hosts m stack same <;> simp [same]

theorem computes_comparison {op : BinaryOp} {i : Instruction} (compares : op.comparison? = some i)
    (a b : Value) : Computes i [b, a] (comparedValue op (some a) (some b)) := by
  by_cases same : a.type = b.type
  · have compared : comparedValue op (some a) (some b) =
        .ok (some (.boolean (if op = .equal then a.equal b else !a.equal b))) := by
      rw [comparedValue, if_pos same]
    rw [compared]
    intro hosts m stack top
    cases op <;> cases compares <;> simp [top, same]
  · have stuck : comparedValue op (some a) (some b) = .error .stuck := by
      rw [comparedValue, if_neg same]
    rw [stuck]
    intro hosts m stack top
    refine ⟨.wrongType a.type b.type, ?_⟩
    cases op <;> cases compares <;> simp [top, same]

theorem computes_convert (target : Ty) (a : Value) :
    Computes (.convert target) [a] (convertedValue target (some a)) := by
  by_cases converts : a.type.convertsTo target = true
  · cases done : a.convert target with
    | ok converted =>
      have concluded : convertedValue target (some a) = .ok (some converted) := by
        rw [convertedValue, if_pos converts, done]
      rw [concluded]
      intro hosts m stack top
      simp [top, converts, done]
    | error failure =>
      have concluded : convertedValue target (some a) = .error (.mishap (.conversion failure)) := by
        rw [convertedValue, if_pos converts, done]
      rw [concluded]
      intro hosts m stack top
      simp [top, converts, done]
  · have stuck : convertedValue target (some a) = .error .stuck := by
      rw [convertedValue, if_neg converts]
    rw [stuck]
    intro hosts m stack top
    exact ⟨.noConversion a.type target, by simp [top, converts]⟩

theorem computes_item (type : Ty) (list index : Value) :
    Computes (.getItem type) [index, list] (itemValue (some type) (some list) (some index)) := by
  match list, index with
  | .list items, .number n =>
    rcases place_cases n items with ⟨k, -, found, placed⟩ | ⟨missing, placed⟩
    · by_cases same : (items.getD k .void).type = type
      · have concluded : itemValue (some type) (some (.list items)) (some (.number n)) =
            .ok (some (items.getD k .void)) := by
          simp only [itemValue, known_some, found, bind, Except.bind, if_pos same]
        rw [concluded]
        intro hosts m stack top
        simp only [Machine.execute, Stack.popNumber, Stack.popList, Stack.pop, top,
          List.cons_append, List.nil_append, bind, Except.bind, pure, Except.pure, placed,
          if_pos same, Option.toList_some]
      · have concluded : itemValue (some type) (some (.list items)) (some (.number n)) =
            .error (.mishap (.itemType n (items.getD k .void).type type)) := by
          simp only [itemValue, known_some, found, bind, Except.bind, if_neg same]
        rw [concluded]
        intro hosts m stack top
        simp only [Machine.execute, Stack.popNumber, Stack.popList, Stack.pop, top,
          List.cons_append, List.nil_append, bind, Except.bind, pure, Except.pure, placed,
          if_neg same]
        rfl
    · have concluded : itemValue (some type) (some (.list items)) (some (.number n)) =
          .error (.mishap (.noItem n items.length)) := by
        simp only [itemValue, known_some, missing, bind, Except.bind]
      rw [concluded]
      intro hosts m stack top
      simp [top, placed]
  | .number _, other | .string _, other | .boolean _, other | .void, other =>
    cases other <;> intro hosts m stack top <;> simp [top]
  | .list _, .string _ | .list _, .boolean _ | .list _, .list _ | .list _, .void =>
    intro hosts m stack top
    simp [top]

theorem computes_setItem (list index value : Value) :
    Computes .setItem [value, index, list]
      (some <$> changedList list (some index) (some value)) := by
  match list, index with
  | .list items, .number n =>
    rcases place_cases n items with ⟨k, -, found, placed⟩ | ⟨missing, placed⟩
    · have concluded : some <$> changedList (.list items) (some (.number n)) (some value) =
          .ok (some (.list (items.set k value))) := by
        simp only [changedList, found]
        rfl
      rw [concluded]
      intro hosts m stack top
      simp [top, placed]
    · have concluded : some <$> changedList (.list items) (some (.number n)) (some value) =
          .error (.mishap (.noItem n items.length)) := by
        simp only [changedList, missing]
        rfl
      rw [concluded]
      intro hosts m stack top
      simp [top, placed]
  | .number _, other | .string _, other | .boolean _, other | .void, other =>
    cases other <;> intro hosts m stack top <;> simp [top]
  | .list _, .string _ | .list _, .boolean _ | .list _, .list _ | .list _, .void =>
    intro hosts m stack top
    simp [top]

theorem computes_makeList {count : UInt16} {values : List Value}
    (counted : count.toNat = values.length) :
    Computes (.makeList count) values.reverse (.ok (some (.list values))) := by
  intro hosts m stack top
  simp [top, Stack.popMany, counted]

theorem computes_counted {length : Nat} {values : List Value} (counted : values.length = length)
    (few : length ≤ 65535) :
    Computes (.makeList (UInt16.ofNat length)) values.reverse (.ok (some (.list values))) := by
  apply computes_makeList
  rw [counted]
  exact UInt16.toNat_ofNat_of_lt (show length < 65536 by omega)

end Computes

theorem checkArguments_iff {values : List Value} {types : List Ty}
    (lengths : values.length = types.length) :
    (values.map Value.type = types → checkArguments values types = .ok ()) ∧
      (values.map Value.type ≠ types →
        ∃ fault, checkArguments values types = .error (.fault fault)) := by
  induction values generalizing types with
  | nil =>
    cases types with
    | nil => exact ⟨fun _ => rfl, fun differs => absurd rfl differs⟩
    | cons => cases lengths
  | cons value values ih =>
    cases types with
    | nil => cases lengths
    | cons type types =>
      obtain ⟨fits, fails⟩ := ih (Nat.succ.inj lengths)
      by_cases same : value.type = type
      · rw [checkArguments, if_pos same, List.map_cons, same]
        exact ⟨fun all => fits (List.cons.inj all).2,
          fun differs => fails fun all => differs (all ▸ rfl)⟩
      · rw [checkArguments, if_neg same]
        exact ⟨fun all => absurd (List.cons.inj all).1 same, fun _ => ⟨_, rfl⟩⟩

/-- The machine takes the host's answer as the interpreter does. -/
theorem resume_answer (m : Machine) (call : HostCall) (reply : HostReply) :
    (∃ made, answerValue call.name call.signature.returns reply = .ok made ∧
        m.resume call reply = .running { m with stack := made.toList ++ m.stack }) ∨
      ∃ x, answerValue call.name call.signature.returns reply = .error (.mishap x) ∧
        m.resume call reply = .failed (.runtime x m.calls.reverse) m.abandon := by
  cases reply with
  | error reason => exact .inr ⟨_, rfl, rfl⟩
  | ok answer =>
    by_cases silent : call.signature.returns = .void
    · refine .inl ⟨none, ?_, ?_⟩
      · simp only [answerValue, if_pos silent]
      · simp only [Machine.resume, if_pos silent]
        rfl
    · cases answer with
      | none =>
        refine .inr ⟨.hostSilent call.name call.signature.returns, ?_, ?_⟩
        · simp only [answerValue, if_neg silent]
        · simp only [Machine.resume, if_neg silent]
      | some value =>
        by_cases same : value.type = call.signature.returns
        · refine .inl ⟨some value, ?_, ?_⟩
          · simp only [answerValue, if_neg silent, if_pos same]
          · simp only [Machine.resume, if_neg silent, if_pos same]
            rfl
        · refine .inr ⟨.hostReturned call.name value.type call.signature.returns, ?_, ?_⟩
          · simp only [answerValue, if_neg silent, if_neg same]
          · simp only [Machine.resume, if_neg silent, if_neg same]

/-- A host procedure is called with the values on the stack. -/
theorem leads_callHost {name : String} {signature : Signature} {values : List Value}
    (known : plan.hosts.signature? name = some signature)
    (lengths : values.length = signature.params.length)
    (fetches : plan.base.code.Fetches ip (.callHost name))
    (passed : plan.passes (plan.state ip (values.reverse ++ stack) locals count))
    (good : ∀ made w', callHost plan.hosts name signature values w = (.ok made, w') →
      plan.Leads (plan.state (ip + (Instruction.callHost name).size) (made.toList ++ stack) locals
        (count + 1)) w')
    (bad : ∀ halt w', callHost plan.hosts name signature values w = (.error halt, w') →
      plan.Settles locals halt w') :
    plan.Leads (plan.state ip (values.reverse ++ stack) locals count) w := by
  obtain ⟨fits, fails⟩ := checkArguments_iff lengths
  have popped : Stack.popMany signature.params.length (values.reverse ++ stack) =
      .ok (values, stack) := by
    rw [← lengths, ← List.length_reverse]
    simp [Stack.popMany]
  have top : (plan.state (ip + (Instruction.callHost name).size) (values.reverse ++ stack) locals
      (count + 1)).stack = values.reverse ++ stack := rfl
  by_cases typed : values.map Value.type = signature.params
  · have done : (plan.state (ip + (Instruction.callHost name).size) (values.reverse ++ stack) locals
        (count + 1)).execute plan.hosts.signature? (.callHost name) =
        .ok (.request ⟨name, signature, values⟩
          (plan.state (ip + (Instruction.callHost name).size) stack locals (count + 1))) := by
      simp only [Machine.execute, known, top, popped, fits typed, bind, Except.bind]
      rfl
    rcases step_state fetches plan.hosts.signature? (values.reverse ++ stack) locals count with
      ⟨mishap, exceeds⟩ | stepped
    · exact .limit fetches.2 exceeds passed
    rw [done] at stepped
    rcases answered : (plan.hosts.call? name values).getD (pure (.ok none)) w with ⟨reply, w'⟩
    have called : callHost plan.hosts name signature values w =
        (answerValue name signature.returns reply, w') := by
      simp only [callHost, if_pos typed, answered]
    rcases resume_answer
      (plan.state (ip + (Instruction.callHost name).size) stack locals (count + 1))
      ⟨name, signature, values⟩ reply with ⟨made, answer, resumed⟩ | ⟨x, answer, resumed⟩
    · refine .turn passed ?_ (good made w' (by rw [called, answer]))
      rw [Machine.turn, stepped]
      simp only [answered, resumed]
      rfl
    · refine .stop passed ?_ (bad (.mishap x) w' (by rw [called, answer])
        (ip + (Instruction.callHost name).size) (count + 1))
      rw [Machine.turn, stepped]
      simp only [answered, resumed]
      rfl
  · obtain ⟨fault, failed⟩ := fails typed
    have done : (plan.state (ip + (Instruction.callHost name).size) (values.reverse ++ stack) locals
        (count + 1)).execute plan.hosts.signature? (.callHost name) = .error (.fault fault) := by
      simp only [Machine.execute, known, top, popped, failed, bind, Except.bind]
    refine leads_trouble fetches passed done ?_
    exact bad .stuck w (by simp only [callHost, if_neg typed])

theorem leads_load {slot : UInt8} {value : Value} (filled : locals.get? slot = some value)
    (fetches : plan.base.code.Fetches ip (.load slot))
    (passed : plan.passes (plan.state ip stack locals count))
    (rest : plan.Leads
      (plan.state (ip + (Instruction.load slot).size) (value :: stack) locals (count + 1)) w) :
    plan.Leads (plan.state ip stack locals count) w := by
  refine leads_next fetches passed ?_ rest
  simp only [Machine.execute]
  rw [show (plan.state (ip + (Instruction.load slot).size) stack locals (count + 1)).locals.get?
    slot = some value from filled]
  rfl

theorem leads_store {slot : UInt8} {value : Value}
    (fetches : plan.base.code.Fetches ip (.store slot))
    (passed : plan.passes (plan.state ip (value :: stack) locals count))
    (rest : plan.Leads
      (plan.state (ip + (Instruction.store slot).size) stack (locals.set slot value) (count + 1))
      w) :
    plan.Leads (plan.state ip (value :: stack) locals count) w :=
  leads_next fetches passed rfl rest

theorem leads_free {slot : UInt8} (fetches : plan.base.code.Fetches ip (.free slot))
    (passed : plan.passes (plan.state ip stack locals count))
    (rest : plan.Leads
      (plan.state (ip + (Instruction.free slot).size) stack (locals.free slot) (count + 1)) w) :
    plan.Leads (plan.state ip stack locals count) w :=
  leads_next fetches passed rfl rest

theorem leads_pop {value : Value} (fetches : plan.base.code.Fetches ip .pop)
    (passed : plan.passes (plan.state ip (value :: stack) locals count))
    (rest : plan.Leads (plan.state (ip + Instruction.pop.size) stack locals (count + 1)) w) :
    plan.Leads (plan.state ip (value :: stack) locals count) w :=
  leads_next fetches passed rfl rest

theorem leads_dup {value : Value} (fetches : plan.base.code.Fetches ip .dup)
    (passed : plan.passes (plan.state ip (value :: stack) locals count))
    (rest : plan.Leads
      (plan.state (ip + Instruction.dup.size) (value :: value :: stack) locals (count + 1)) w) :
    plan.Leads (plan.state ip (value :: stack) locals count) w :=
  leads_next fetches passed rfl rest

theorem leads_jump {target : Nat} (inside : target ≤ plan.base.code.size)
    (fetches : plan.base.code.Fetches ip (.jump target))
    (passed : plan.passes (plan.state ip stack locals count))
    (rest : plan.Leads (plan.state target stack locals (count + 1)) w) :
    plan.Leads (plan.state ip stack locals count) w := by
  refine leads_next fetches passed ?_ rest
  have here : target ≤ (plan.state (ip + (Instruction.jump target).size) stack locals
      (count + 1)).code.size := inside
  simp only [Machine.execute, Machine.jump, if_pos here]
  rfl

/-- A conditional jump needs a boolean. -/
theorem leads_jumpIf {target : Nat} {value : Value} (inside : target ≤ plan.base.code.size)
    (fetches : plan.base.code.Fetches ip (.jumpIf target))
    (passed : plan.passes (plan.state ip (value :: stack) locals count))
    (taken : value = .boolean true → plan.Leads (plan.state target stack locals (count + 1)) w)
    (falls : value = .boolean false →
      plan.Leads (plan.state (ip + Fragment.jumpSize) stack locals (count + 1)) w)
    (bad : (∀ b, value ≠ .boolean b) → plan.Settles locals .stuck w) :
    plan.Leads (plan.state ip (value :: stack) locals count) w := by
  cases value with
  | boolean b =>
    cases b with
    | false => exact leads_next fetches passed rfl (falls rfl)
    | true =>
      refine leads_next fetches passed ?_ (taken rfl)
      have popped : Stack.popBoolean (plan.state (ip + (Instruction.jumpIf target).size)
          (.boolean true :: stack) locals (count + 1)).stack = .ok (true, stack) := rfl
      simp only [Machine.execute, popped, bind, Except.bind, if_true, Machine.jump]
      rw [if_pos (show target ≤ (plan.state (ip + (Instruction.jumpIf target).size)
        (.boolean true :: stack) locals (count + 1)).code.size from inside)]
      rfl
  | _ => exact leads_trouble fetches passed rfl (bad (by simp))

end Plan

end Primer
