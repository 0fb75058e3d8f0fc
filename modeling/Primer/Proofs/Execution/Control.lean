import Primer.Proofs.Execution.Statements

/-!
The code of conditionals, loops and blocks does what the interpreter does with them, and so does the
code of a whole unit.
-/

set_option autoImplicit false
set_option relaxedAutoImplicit false

namespace Primer

open Compile Interpreter

variable {σ : Type}

namespace Launch

variable {launch : Launch σ} {offset : Nat} {locals : Locals} {store : Store} {c c₁ c' : Compiler}
  {x : Compiled}

theorem condition_safe {rules : Rules σ} {prior : Ty} {test : Node}
    (safe : Safe (OfType (some .boolean)) (evaluate rules store prior test (some .boolean))) :
    Safe (fun _ => True) (condition rules store prior test) := by
  refine safe.bind fun found typed => ?_
  obtain ⟨b, rfl⟩ := OfType.boolean typed
  exact Safe.pure trivial

/-- A condition is tested, and its value decides where the run goes on. -/
theorem leads_guarded {start target : Nat} {test : Node} {prior : Ty} {code : Fragment}
    (carries : launch.Carries start (start + code.size) locals []
      (evaluate launch.rules store prior test (some .boolean)) Single)
    (safe : launch.rules.strict = true →
      Safe (fun _ => True) (condition launch.rules store prior test))
    (settled : launch.Settled locals)
    (placed : launch.base.code.Places start (Fragment.unlessGoTo code target))
    (inside : target + start ≤ launch.base.code.size) (stack : List Value) (count : Nat) (w : σ)
    (yes : ∀ w' later, count < later → condition launch.rules store prior test w = (.ok true, w') →
      launch.plan.Leads (launch.plan.state (start + Fragment.guardSize code) stack locals later) w')
    (no : ∀ w' later, count < later → condition launch.rules store prior test w = (.ok false, w') →
      launch.plan.Leads (launch.plan.state (target + start) stack locals later) w')
    (bad : ∀ halt w', condition launch.rules store prior test w = (.error halt, w') →
      (halt = .stuck → launch.rules.strict = false) → launch.plan.Settles locals halt w') :
    launch.plan.Leads (launch.plan.state start stack locals count) w := by
  obtain ⟨deciding, jump⟩ := Fragment.places_guard placed
  rw [Fragment.guardSize_eq] at yes
  have fails : ∀ halt w', condition launch.rules store prior test w = (.error halt, w') →
      launch.plan.Settles locals halt w' := by
    intro halt w' done
    refine bad halt w' done fun stuck => ?_
    cases strict : launch.rules.strict with
    | false => rfl
    | true =>
      have notStuck := safe strict w
      rw [done] at notStuck
      exact absurd stuck notStuck
  refine carries stack count w (fun found w' values later done makes more => ?_)
    fun halt w' done => fails halt w' (Evaluate.bind_error done)
  obtain ⟨value, rfl, rfl⟩ := makes
  refine leads_decision settled deciding jump inside ?_ ?_ fun other => ?_
  · rintro b later' more' rfl decides
    refine no w' later' (Nat.lt_of_le_of_lt more more') ?_
    rw [condition, Evaluate.bind_ok done]
    simp only [Logic.decides, Bool.not_eq_true'] at decides
    rw [decides]
    rfl
  · rintro b later' more' rfl decides
    refine yes w' later' (Nat.lt_of_le_of_lt more more') ?_
    rw [condition, Evaluate.bind_ok done]
    simp only [Logic.decides, Bool.not_eq_false'] at decides
    rw [decides]
    rfl
  · refine fails .stuck w' ?_
    rw [condition, Evaluate.bind_ok done]
    cases value with
    | boolean b => exact absurd rfl (other b)
    | _ => rfl

/-- Slots that no variable from before the unit has are freed one after another. -/
theorem leads_frees {start count : Nat} {slots : List UInt8} {stack : List Value} {w : σ}
    (spells : launch.base.code.Spells start (slots.map Instruction.free))
    (settled : ∀ freed, freed <+: slots → launch.Settled (locals.freeAll freed))
    (rest : ∀ later, count ≤ later → launch.plan.Leads
      (launch.plan.state (start + Fragment.size (slots.map Instruction.free)) stack
        (locals.freeAll slots) later) w) :
    launch.plan.Leads (launch.plan.state start stack locals count) w := by
  induction slots generalizing start count locals with
  | nil => exact rest count (Nat.le_refl count)
  | cons slot more ih =>
    obtain ⟨fetches, others⟩ := Bytecode.Spells.next spells
    have here : launch.Settled locals := settled [] List.nil_prefix
    refine Plan.leads_free fetches (here.watched fetches (by simp) _ _) ?_
    refine ih others (fun freed part => settled (slot :: freed) ?_) fun later less => ?_
    · exact List.cons_prefix_cons.mpr ⟨rfl, part⟩
    · have last := rest later (by omega)
      rwa [List.map_cons, Fragment.size_cons, ← Nat.add_assoc] at last

/-- What a scope introduced is freed when it is left, and nothing else. -/
theorem leads_leave {inner : Compiler} {new : List (String × Variable)} {extra : List (UInt8 × Nat)}
    {start count : Nat} {stack : List Value} {w : σ} (outside : launch.Inside c)
    (inside : launch.Inside inner) (opened : Scope.Opened c.scope inner.scope new extra)
    (agrees : Agrees c.scope locals store) (spells : launch.base.code.Spells start inner.frees)
    (rest : ∀ later locals', count ≤ later → Agrees c.scope locals' store →
      (∀ earlier, Keeps c.scope inner.scope earlier locals →
        Keeps c.scope c.scope earlier locals') →
      launch.plan.Leads (launch.plan.state (start + inner.frees.size) stack locals' later) w) :
    launch.plan.Leads (launch.plan.state start stack locals count) w := by
  have owned : (inner.scope.leave.1 ++ c.scope.slots).Perm inner.scope.slots := by
    have given := opened.leave_slots outside.tidy
    rw [List.perm_iff_count] at given ⊢
    intro slot
    have same := given slot
    simp only [Scope.slots, opened.bindings, opened.scratch, List.map_append,
      List.count_append] at same ⊢
    omega
  have accounts := inside.slots.perm owned.symm
  have freed : ∀ slots, slots <+: inner.scope.leave.1 →
      Agrees c.scope (locals.freeAll slots) store := fun slots part =>
    agrees.freeAll (accounts.sublist (part.sublist.append_right _))
  refine leads_frees spells (fun slots part => outside.settled (freed slots part))
    fun later more => rest later _ more (freed _ List.prefix_rfl) ?_
  have apart := (List.nodup_append.mp accounts.nodup).2.2
  intro earlier keeps
  constructor
  · intro cell member
    refine Eq.trans (Locals.get?_freeAll fun isFreed => apart _ isFreed _ ?_ rfl)
      (keeps.scratch cell member)
    exact List.mem_append_right _ (List.mem_map_of_mem member)
  · intro filled
    rw [Locals.get?_freeAll fun isFreed => accounts.ne_result (List.mem_append_left _ isFreed) rfl]
    exact keeps.result filled
  · intro slot other outside none
    by_cases isFreed : slot ∈ inner.scope.leave.1
    · exact Locals.get?_freeAll_none (.inl isFreed)
    · refine Locals.get?_freeAll_none (.inr (keeps.empty slot other (fun used => ?_) none))
      exact (List.mem_append.mp (owned.mem_iff.mpr used)).elim isFreed outside

theorem spells_frees {code : Bytecode} {address : Nat} {less : Fragment}
    (placed : code.Places address (less ++ c.frees)) :
    code.Spells (address + less.size) c.frees := by
  refine placed.straight rfl ?_
  simp [Compiler.frees, Fragment.shift, Function.comp_def, Instruction.shift]

variable (launch) in
/-- From an address on, the code of a statement, of a block or of several statements does what the
interpreter does. -/
def Executes (start : Nat) (locals : Locals) (store : Store) :
    Task → Compiler → Compiled → Compiler → Prop
  | .node n _, c, x, c' => n.isExpression = false →
    launch.Acts start (start + x.code.size) locals store [] (perform launch.rules c.prior n)
      fun _ => Done c.scope c'.scope locals
  | .block nodes, c, x, _ =>
    launch.Acts start (start + x.code.size) locals store []
      (inBlock (performAll launch.rules .void nodes)) fun _ => Done c.scope c.scope locals
  | .statements nodes, c, x, c' =>
    launch.Acts start (start + x.code.size) locals store [] (performAll launch.rules c.prior nodes)
      fun type values locals' store' => Done c.scope c'.scope locals values locals' store' ∧
        type = c'.prior ∧ Typed c'.prior locals'
  | _, _, _, _ => True

theorem inBlock_ok {body : Perform σ Ty} {type : Ty} {store' : Store} {w w' : σ}
    (done : body store w = ((.ok type, store'), w')) :
    inBlock body store w = ((.ok (), store'.keep store.entries.length), w') := by
  show (body >>= fun _ => modify (·.keep store.entries.length)) store w = _
  rw [Perform.bind_ok done]
  rfl

theorem inBlock_error {body : Perform σ Ty} {halt : Halt} {store' : Store} {w w' : σ}
    (done : body store w = ((.error halt, store'), w')) :
    inBlock body store w = ((.error halt, store'), w') := by
  show (body >>= fun _ => modify (·.keep store.entries.length)) store w = _
  rw [Perform.bind_error done]

theorem executes_block {nodes : List Node}
    (site : launch.Site offset (.block nodes) c (x.code ++ c'.frees))
    (derivation : Yields (.statements nodes) c.entered x c') (agrees : Agrees c.scope locals store)
    (inner : launch.Executes (launch.entry + offset) locals store (.statements nodes)
      c.entered x c') :
    launch.Executes (launch.entry + offset) locals store (.block nodes) c
      ⟨some .void, x.code ++ c'.frees⟩ { c'.left with prior := c.prior } := by
  have grows := derivation.grows site.tidy.enter
  obtain ⟨new, opened⟩ := grows.opened
  have inside : launch.Inside c' :=
    site.toInside.entered.yields derivation (grows.within (.inr (Nat.succ_pos _))).1
  intro stack count w good bad
  refine inner stack count w ?_ fun halt store' w' locals' done => bad halt store' w' locals'
    (inBlock_error done)
  rintro type store' w' values locals' later done ⟨⟨rfl, agrees', keeps⟩, -, -⟩ more
  have next := inBlock_ok done
  rw [agrees.held.length_eq] at next
  refine leads_leave site.toInside inside opened (agrees'.keep opened.bindings)
    (spells_frees site.placed) fun last locals'' more' agrees'' keeps' => ?_
  rw [Nat.add_assoc, ← Fragment.size_append]
  exact good () _ w' [] locals'' last next
    ⟨rfl, agrees'', keeps' locals ⟨keeps.scratch, keeps.result, keeps.empty⟩⟩
    (Nat.le_trans more more')

theorem observe_ok {α : Type} {look : Store → Evaluate σ α} {a : α} {w w' : σ}
    (done : look store w = (.ok a, w')) : observe look store w = ((.ok a, store), w') := by
  simp only [observe, done]

theorem observe_error {α : Type} {look : Store → Evaluate σ α} {halt : Halt} {w w' : σ}
    (done : look store w = (.error halt, w')) :
    observe look store w = ((.error halt, store), w') := by
  simp only [observe, done]

section Conditionals

variable {test : Node} {body other : List Node} {want : Option Ty} {y z : Compiled}

/-- The condition of a statement does what the interpreter does. -/
theorem condition_carries {role : Role} (condition : Yields (.operand test .boolean role) c x c₁)
    (site : launch.Site offset (.operand test .boolean role) c x.code)
    (agrees : Agrees c.scope locals store) (typed : Typed c.prior locals) :
    launch.Carries (launch.entry + offset) (launch.entry + offset + x.code.size) locals []
        (evaluate launch.rules store c.prior test (some .boolean)) Single ∧
      Safe (fun _ => True) (Interpreter.condition launch.rules store c.prior test) :=
  ⟨condition.simulates agrees site typed.fresh (by simp),
    condition_safe (condition.safe site.plain agrees.describes (typed.filled agrees) (by simp))⟩

theorem executes_branch
    (site : launch.Site offset (.node (.branch test body none) want) c
      (Fragment.conditional x.code y.code))
    (condition : Yields (.operand test .boolean .ifCondition) c x c)
    (agrees : Agrees c.scope locals store)
    (typed : Typed c.prior locals) (same : c'.scope = c.scope)
    (inner : launch.Executes (launch.entry + offset + Fragment.guardSize x.code) locals store
      (.block body) c y c') :
    launch.Executes (launch.entry + offset) locals store (.node (.branch test body none) want) c
      ⟨some .void, Fragment.conditional x.code y.code⟩ c' := by
  intro _ stack count w good bad
  obtain ⟨guard, -⟩ := Fragment.places_conditional site.placed
  have fits := site.placed.fits
  have size :
      (Fragment.conditional x.code y.code).size = Fragment.guardSize x.code + y.code.size := by
    simp [Fragment.conditional]
  obtain ⟨carries, safe⟩ := condition_carries condition
    (site.first site.toInside .branchTest (Bytecode.Places.left guard)) agrees typed
  simp only [perform] at good bad
  simp only [same, size, ← Nat.add_assoc] at good
  refine leads_guarded carries (fun _ => safe) (site.settled agrees) guard (by omega) stack count w
    (fun w' later more done => ?_) (fun w' later more done => ?_) fun halt w' done lenient => ?_
  · refine inner stack later w' (fun a store' w'' values locals' last done' reached more' => ?_)
      fun halt store' w'' locals' done' => bad halt store' w'' locals' ?_
    · refine good a store' w'' values locals' last ?_ reached (by omega)
      rw [Perform.bind_ok (observe_ok done)]
      exact done'
    · rw [Perform.bind_ok (observe_ok done)]
      exact done'
  · rw [Nat.add_comm, ← Nat.add_assoc]
    refine good () store w' [] locals later ?_ ⟨rfl, agrees, .refl _ _ _⟩ (Nat.le_of_lt more)
    rw [Perform.bind_ok (observe_ok done)]
    rfl
  · exact bad halt store w' locals (Perform.bind_error (observe_error done)) lenient
      (site.keep agrees)

theorem executes_alternative {c₂ : Compiler}
    (site : launch.Site offset (.node (.branch test body (some other)) want) c
      (Fragment.alternative x.code y.code z.code))
    (condition : Yields (.operand test .boolean .ifCondition) c x c)
    (agrees : Agrees c.scope locals store)
    (typed : Typed c.prior locals) (same : c₂.scope = c.scope) (same' : c'.scope = c.scope)
    (inner : launch.Executes (launch.entry + offset + Fragment.guardSize x.code) locals store
      (.block body) c y c₂)
    (otherwise : launch.Executes
      (launch.entry + offset + (Fragment.guardSize x.code + y.code.size + Fragment.jumpSize)) locals
      store (.block other) c₂ z c') :
    launch.Executes (launch.entry + offset) locals store
      (.node (.branch test body (some other)) want) c
      ⟨some .void, Fragment.alternative x.code y.code z.code⟩ c' := by
  intro _ stack count w good bad
  obtain ⟨guard, -, jump, -⟩ := Fragment.places_alternative site.placed
  have fits := site.placed.fits
  have size : (Fragment.alternative x.code y.code z.code).size =
      Fragment.guardSize x.code + y.code.size + Fragment.jumpSize + z.code.size := by
    simp [Fragment.alternative, Nat.add_assoc]
  obtain ⟨carries, safe⟩ := condition_carries condition
    (site.first site.toInside .branchTest (Bytecode.Places.left guard)) agrees typed
  simp only [perform] at good bad
  simp only [same', size] at good
  rw [Executes, same] at otherwise
  refine leads_guarded carries (fun _ => safe) (site.settled agrees) guard (by omega) stack count w
    (fun w' later more done => ?_) (fun w' later more done => ?_) fun halt w' done lenient => ?_
  · refine inner stack later w' (fun a store' w'' values locals' last done' reached more' => ?_)
      fun halt store' w'' locals' done' => bad halt store' w'' locals' ?_
    · -- The other body is jumped over.
      rw [Nat.add_assoc (launch.entry + offset)]
      refine Plan.leads_jump (show _ ≤ launch.base.code.size by omega) jump
        ((site.settled reached.2.1).watched jump (by simp) _ _) ?_
      rw [Nat.add_comm _ (launch.entry + offset)]
      refine good a store' w'' values locals' (last + 1) ?_ reached (by omega)
      rw [Perform.bind_ok (observe_ok done)]
      exact done'
    · rw [Perform.bind_ok (observe_ok done)]
      exact done'
  · rw [Nat.add_comm _ (launch.entry + offset)]
    refine otherwise stack later w' (fun a store' w'' values locals' last done' reached more' => ?_)
      fun halt store' w'' locals' done' => bad halt store' w'' locals' ?_
    · rw [Nat.add_assoc (launch.entry + offset)]
      refine good a store' w'' values locals' last ?_ reached (by omega)
      rw [Perform.bind_ok (observe_ok done)]
      exact done'
    · rw [Perform.bind_ok (observe_ok done)]
      exact done'
  · exact bad halt store w' locals (Perform.bind_error (observe_error done)) lenient
      (site.keep agrees)

end Conditionals

section Loops

variable {test count : Node} {body : List Node} {want : Option Ty} {y : Compiled}

/-- The test of a loop is executed again when the body may have changed the type of the result. -/
theorem retested_carries
    (condition : Yields (.operand test .boolean .whileCondition) c x c₁)
    (site : launch.Site offset (.operand test .boolean .whileCondition) c x.code)
    (agrees : Agrees c.scope locals store)
    (filled : c.prior ≠ .void → (locals.get? resultSlot).isSome) :
    launch.Carries (launch.entry + offset) (launch.entry + offset + x.code.size) locals []
        (evaluate launch.rules store c.prior test (some .boolean)) Single ∧
      (launch.rules.strict = true →
        Safe (fun _ => True) (Interpreter.condition launch.rules store c.prior test)) := by
  have retested : Retested launch.program launch.before offset
      (.operand test .boolean .whileCondition) c := ⟨offset, 0, test, c, rfl, site.occurs, .here⟩
  have fresh : launch.Fresh offset (.operand test .boolean .whileCondition) c locals := by
    intro available
    obtain ⟨value, found⟩ := Option.isSome_iff_exists.mp (filled available)
    exact ⟨value, found, .inr retested⟩
  refine ⟨condition.simulates agrees site fresh (by simp), fun strict => ?_⟩
  refine condition_safe (condition.safe site.plain agrees.describes (fun available => ?_) (by simp))
  obtain ⟨value, found⟩ := Option.isSome_iff_exists.mp (filled available)
  exact ⟨value, agrees.result.symm.trans found, .inl strict⟩

theorem leads_while {stack : List Value}
    (site : launch.Site offset (.node (.loop test body) want) c (Fragment.whileLoop x.code y.code))
    (condition : Yields (.operand test .boolean .whileCondition) c x c)
    (inner : ∀ locals store, Agrees c.scope locals store →
      launch.Executes (launch.entry + offset + Fragment.guardSize x.code) locals store
        (.block body) c y c')
    (remaining : Nat) : ∀ (count : Nat) (locals : Locals) (store : Store) (w : σ),
    launch.rules.rounds ≤ count + remaining → Agrees c.scope locals store →
    (c.prior ≠ .void → (locals.get? resultSlot).isSome) →
    (∀ store' w' locals' later,
      whileDo (fun store => Interpreter.condition launch.rules store c.prior test)
        (inBlock (performAll launch.rules .void body)) remaining store w = ((.ok (), store'), w') →
      Agrees c.scope locals' store' → Keeps c.scope c.scope locals locals' → count ≤ later →
      launch.plan.Leads (launch.plan.state
        (launch.entry + offset + (Fragment.whileLoop x.code y.code).size) stack locals' later) w') →
    (∀ halt store' w' locals',
      whileDo (fun store => Interpreter.condition launch.rules store c.prior test)
        (inBlock (performAll launch.rules .void body)) remaining store w =
          ((.error halt, store'), w') →
      (halt = .stuck → launch.rules.strict = false) →
      Agrees launch.before.scope locals' (store'.keep launch.before.scope.bindings.length) →
      launch.plan.Settles locals' halt w') →
    launch.plan.Leads (launch.plan.state (launch.entry + offset) stack locals count) w := by
  obtain ⟨guard, -, jump⟩ := Fragment.places_whileLoop site.placed
  have fits := site.placed.fits
  have size : (Fragment.whileLoop x.code y.code).size =
      Fragment.guardSize x.code + y.code.size + Fragment.jumpSize := by
    simp [Fragment.whileLoop, Nat.add_assoc]
  have testSite := site.first site.toInside .loopTest (Bytecode.Places.left guard)
  -- The rounds that remain and the steps already taken are at least as many as all rounds.
  induction remaining with
  | zero =>
    intro count locals store w enough agrees filled good bad
    exact .here
      (bad .exhausted store w locals rfl (fun same => by cases same) (site.keep agrees) _ stack
      count enough)
  | succ remaining ih =>
    intro count locals store w enough agrees filled good bad
    obtain ⟨carries, safe⟩ := retested_carries condition testSite agrees filled
    simp only [whileDo] at good bad
    refine leads_guarded carries safe (site.settled agrees) guard (by omega) stack count w
      (fun w' later more done => ?_) (fun w' later more done => ?_) fun halt w' done lenient => ?_
    · refine inner locals store agrees stack later w'
        (fun a store' w'' values locals' last done' reached more' => ?_)
        fun halt store' w'' locals' done' => bad halt store' w'' locals' ?_
      · obtain ⟨rfl, agrees', keeps⟩ := reached
        rw [Nat.add_assoc (launch.entry + offset)]
        refine Plan.leads_jump (show _ ≤ launch.base.code.size by omega) jump
          ((site.settled agrees').watched jump (by simp) _ _) ?_
        refine ih (last + 1) locals' store' w'' (by omega) agrees'
          (fun available => keeps.result (filled available))
          (fun store'' w₃ locals'' last' done'' agrees'' keeps' more'' => ?_)
          fun halt store'' w₃ locals'' done'' => bad halt store'' w₃ locals'' ?_
        · refine good store'' w₃ locals'' last' ?_ agrees''
            (keeps.trans keeps' (List.Subset.refl _)) (by omega)
          rw [Perform.bind_ok (observe_ok done)]
          simp only [if_true]
          rw [Perform.bind_ok done']
          exact done''
        · rw [Perform.bind_ok (observe_ok done)]
          simp only [if_true]
          rw [Perform.bind_ok done']
          exact done''
      · rw [Perform.bind_ok (observe_ok done)]
        simp only [if_true]
        exact Perform.bind_error done'
    · rw [Nat.add_comm _ (launch.entry + offset), ← size]
      refine good store w' locals later ?_ agrees (.refl _ _ _) (Nat.le_of_lt more)
      rw [Perform.bind_ok (observe_ok done)]
      rfl
    · exact bad halt store w' locals (Perform.bind_error (observe_error done)) lenient
        (site.keep agrees)

theorem executes_loop
    (site : launch.Site offset (.node (.loop test body) want) c (Fragment.whileLoop x.code y.code))
    (condition : Yields (.operand test .boolean .whileCondition) c x c)
    (agrees : Agrees c.scope locals store) (typed : Typed c.prior locals)
    (same : c'.scope = c.scope) (inner : ∀ locals store, Agrees c.scope locals store →
      launch.Executes (launch.entry + offset + Fragment.guardSize x.code) locals store
        (.block body) c y c') :
    launch.Executes (launch.entry + offset) locals store (.node (.loop test body) want) c
      ⟨some .void, Fragment.whileLoop x.code y.code⟩ c' := by
  intro _ stack count w good bad
  simp only [perform] at good bad
  rw [same] at good
  refine leads_while site condition inner launch.rules.rounds count locals store w
    (Nat.le_add_left _ _) agrees (fun available => ?_)
    (fun store' w' locals' later done agrees' keeps more => ?_) bad
  · obtain ⟨value, filled, -⟩ := typed available
    rw [filled]
    rfl
  · exact good () store' w' [] locals' later done ⟨rfl, agrees', keeps⟩ more

/-- The count is compared with zero, and the slots of the loop are filled. -/
theorem leads_prepare {start : Nat} {threshold counter : UInt8} {code inner more : Fragment}
    {n : Number} {stack : List Value} {steps : Nat} {w : σ}
    (placed : launch.base.code.Places start
      (Fragment.countedLoop code threshold counter inner ++ more))
    (settled : launch.Settled locals)
    (settled' : launch.Settled (locals.set threshold (.number n)))
    (none : n.lessEq .zero = true → ∀ later, steps ≤ later → launch.plan.Leads
      (launch.plan.state (start + (Fragment.skipped code threshold counter inner + 1)) stack locals
        later) w)
    (some : n.lessEq .zero = false → ∀ later, steps ≤ later → launch.plan.Leads
      (launch.plan.state (start + Fragment.roundStart code threshold counter) stack
        ((locals.set threshold (.number n)).set counter (.number .zero)) later) w) :
    launch.plan.Leads
      (launch.plan.state (start + code.size) (.number n :: stack) locals steps) w := by
  have fits := placed.left.fits
  rw [Fragment.size_countedLoop] at fits
  obtain ⟨-, head, skip, prepare, -, -, -, -, pop⟩ := Fragment.places_countedLoop placed
  obtain ⟨dup, head⟩ := head.next
  obtain ⟨zero, head⟩ := head.next
  obtain ⟨order, -⟩ := head.next
  obtain ⟨first, prepare⟩ := prepare.next
  obtain ⟨zero', prepare⟩ := prepare.next
  obtain ⟨second, -⟩ := prepare.next
  refine Plan.leads_dup dup (settled.watched dup (by simp) _ _) ?_
  refine Plan.leads_compute [] (Plan.computes_push _) zero
    (settled.watched zero (by simp) _ _) (fun made done => ?_) nofun
  cases done
  refine Plan.leads_compute [.number .zero, .number n] (Plan.computes_order .lessEq _ _) order
    (settled.watched order (by simp) _ _) (fun made done => ?_) nofun
  cases done
  have address : start + code.size + Instruction.dup.size +
      (Instruction.push (.number .zero)).size + (Instruction.order .lessEq).size =
      start + (Fragment.counted code).size := by
    simp [Fragment.counted, Nat.add_assoc]
  rw [address]
  refine Plan.leads_jumpIf (show _ ≤ launch.base.code.size by omega) skip
    (settled.watched skip (by simp) _ _) (fun same => ?_) (fun same => ?_) fun other => ?_
  · rw [Nat.add_comm _ start]
    refine Plan.leads_pop pop (settled.watched pop (by simp) _ _) ?_
    exact none (Value.boolean.inj same) _ (by omega)
  · rw [Nat.add_assoc start]
    refine Plan.leads_store first (settled.watched first (by simp) _ _) ?_
    refine Plan.leads_compute [] (Plan.computes_push _) zero'
      (settled'.watched zero' (by simp) _ _) (fun made done => ?_) nofun
    cases done
    refine Plan.leads_store second (settled'.watched second (by simp) _ _) ?_
    have next := some (Value.boolean.inj same) (steps + 7) (by omega)
    have address : start + Fragment.roundStart code threshold counter =
        start + (Fragment.size (Fragment.counted code) + Fragment.jumpSize) +
        (Instruction.store threshold).size +
          (Instruction.push (.number .zero)).size + (Instruction.store counter).size := by
      simp [Fragment.roundStart, Nat.add_assoc]
    rwa [address] at next
  · exact absurd rfl (other _)

/-- A round is counted, and the counter is compared with the count. -/
theorem leads_advance {place : Nat} {threshold counter : UInt8} {n k : Number} {stack : List Value}
    {steps : Nat} {w : σ}
    (spells : launch.base.code.Spells (launch.entry + place) (Fragment.advance threshold counter))
    (reads : ∀ back slot, (Fragment.advance threshold counter).at? back = some (.load slot) →
      ∀ locals n, Locals.get? locals slot = some (.number n) →
        Reading launch.program launch.before (place + back) slot locals)
    (settled : ∀ k, launch.Settled (locals.set counter (.number k))) (differs : threshold ≠ counter)
    (limit : locals.get? threshold = some (.number n))
    (counted : locals.get? counter = some (.number k)) (here : launch.Settled locals)
    (rest : ∀ later, steps < later → launch.plan.Leads
      (launch.plan.state (launch.entry + place + (Fragment.advance threshold counter).size)
        (.boolean ((k.add .one).less n) :: stack) (locals.set counter (.number (k.add .one))) later)
        w) :
    launch.plan.Leads (launch.plan.state (launch.entry + place) stack locals steps) w := by
  obtain ⟨loadCounter, spells⟩ := Bytecode.Spells.next spells
  obtain ⟨one, spells⟩ := spells.next
  obtain ⟨add, spells⟩ := spells.next
  obtain ⟨dup, spells⟩ := spells.next
  obtain ⟨store, spells⟩ := spells.next
  obtain ⟨loadThreshold, spells⟩ := spells.next
  obtain ⟨less, -⟩ := spells.next
  have after := settled (k.add .one)
  refine Plan.leads_load counted loadCounter
    (here.watched_load loadCounter (reads 0 counter rfl locals k counted) _ _) ?_
  refine Plan.leads_compute [] (Plan.computes_push _) one
    (here.watched one (by simp) _ _) (fun made done => ?_) nofun
  cases done
  refine Plan.leads_compute [.number .one, .number k] (Plan.computes_arith .add _ _) add
    (here.watched add (by simp) _ _) (fun made done => ?_) nofun
  cases done
  refine Plan.leads_dup dup (here.watched dup (by simp) _ _) ?_
  refine Plan.leads_store store (here.watched store (by simp) _ _) ?_
  have kept : (locals.set counter (.number (k.add .one))).get? threshold = some (.number n) := by
    rwa [Locals.get?_set_ne _ _ _ differs]
  have reading := reads (Fragment.size [.load counter, .push (.number .one), .arith .add, .dup,
    .store counter]) threshold rfl _ n kept
  have passed := after.watched_load (by simpa [Nat.add_assoc] using loadThreshold) reading
  refine Plan.leads_load kept loadThreshold (by simpa [Arith.apply, Nat.add_assoc] using passed _ _)
    ?_
  refine Plan.leads_compute [.number n, .number (k.add .one)]
    (Plan.computes_order .less _ _) less (after.watched less (by simp) _ _)
    (fun made done => ?_) nofun
  cases done
  have next := rest (steps + 7) (by omega)
  simpa [Fragment.advance, Arith.apply, Order.apply, Nat.add_assoc] using next

variable {threshold counter : UInt8} {c₂ c₃ : Compiler}

/-- The slots of a loop belong to it alone. -/
theorem Inside.loop (inside : launch.Inside c)
    (first : Compile.allocateScratch { c with scope := c.scope.enter } = .ok (threshold, c₂))
    (second : Compile.allocateScratch c₂ = .ok (counter, c₃)) :
    launch.Inside c₃ ∧ Scope.Opened c.scope c₃.scope []
        [(threshold, c.scope.depth + 1), (counter, c.scope.depth + 1)] ∧
      threshold ≠ counter ∧ ∀ slot ∈ [threshold, counter],
        c₃.slots.Accounts (slot :: c.scope.scratch.map (·.1)) := by
  have inside₃ := (inside.enter.allocateScratch first).allocateScratch second
  have accounts := inside₃.slots
  obtain ⟨slots, -, rfl⟩ := allocateScratch_ok first
  obtain ⟨slots', -, rfl⟩ := allocateScratch_ok second
  have opened := Scope.opened_scratch c.scope threshold counter
  have listed : slots'.Accounts (c.scope.scratch.map (·.1) ++ [threshold, counter]) := by
    refine accounts.sublist (.trans ?_ (List.sublist_append_right _ _))
    simp [Scope.addScratch, Scope.enter]
  refine ⟨inside₃, opened, ?_, fun slot member => ?_⟩
  · have apart := (List.nodup_append.mp listed.nodup).2.1
    intro same
    simp [same] at apart
  · refine (listed.perm List.perm_append_comm).sublist ?_
    exact (List.singleton_sublist.mpr member).append_right _

theorem leads_repeat {stack : List Value} {more : Fragment} {n : Number}
    (site : launch.Site offset (.node (.times count body) want) c
      (Fragment.countedLoop x.code threshold counter y.code ++ more))
    (amount : Yields (.operand count .number .repeatCount) { c with scope := c.scope.enter } x c₁)
    (first : Compile.allocateScratch { c with scope := c.scope.enter } = .ok (threshold, c₂))
    (second : Compile.allocateScratch c₂ = .ok (counter, c₃))
    (same : c₁ = { c with scope := c.scope.enter }) (derivation : Yields (.block body) c₃ y c')
    (inner : ∀ locals store, Agrees c₃.scope locals store →
      launch.Executes (launch.entry + offset + Fragment.roundStart x.code threshold counter) locals
        store (.block body) c₃ y c')
    (remaining : Nat) : ∀ (steps : Nat) (locals : Locals) (store : Store) (w : σ) (k : Number),
    launch.rules.rounds ≤ steps + remaining → Agrees c₃.scope locals store →
    locals.get? threshold = some (.number n) → locals.get? counter = some (.number k) →
    (∀ store' w' locals' later,
      repeatDo n (inBlock (performAll launch.rules .void body)) remaining k store w =
        ((.ok (), store'), w') →
      Agrees c₃.scope locals' store' → Keeps c.scope c₃.scope locals locals' → steps ≤ later →
      launch.plan.Leads (launch.plan.state (launch.entry + offset +
        (Fragment.skipped x.code threshold counter y.code + 1)) stack locals' later) w') →
    (∀ halt store' w' locals',
      repeatDo n (inBlock (performAll launch.rules .void body)) remaining k store w =
        ((.error halt, store'), w') →
      (halt = .stuck → launch.rules.strict = false) →
      Agrees launch.before.scope locals' (store'.keep launch.before.scope.bindings.length) →
      launch.plan.Settles locals' halt w') →
    launch.plan.Leads (launch.plan.state
      (launch.entry + offset + Fragment.roundStart x.code threshold counter) stack locals steps)
      w := by
  have fits := site.placed.left.fits
  rw [Fragment.size_countedLoop] at fits
  have early : Fragment.roundStart x.code threshold counter ≤
      Fragment.skipped x.code threshold counter y.code := by
    simp only [Fragment.skipped]
    omega
  obtain ⟨inside, opened, differs, apart⟩ := site.toInside.loop first second
  obtain ⟨-, -, -, -, -, advance, again, leave, -⟩ := Fragment.places_countedLoop site.placed
  have scratch : ∀ slot ∈ [threshold, counter], slot ∈ c₃.scope.scratch.map (·.1) := by
    intro slot member
    rw [opened.scratch, List.map_append]
    refine List.mem_append_right _ ?_
    simpa using member
  induction remaining with
  | zero =>
    intro steps locals store w k enough agrees limit counted good bad
    exact .here
      (bad .exhausted store w locals rfl (fun same => by cases same) (inside.keep agrees) _
      stack steps enough)
  | succ remaining ih =>
    intro steps locals store w k enough agrees limit counted good bad
    simp only [repeatDo] at good bad
    refine inner locals store agrees stack steps w ?_ fun halt store' w' locals' done =>
      bad halt store' w' locals' (Perform.bind_error done)
    rintro a store' w' values locals' later done ⟨rfl, agrees', keeps⟩ more
    have unchanged : ∀ slot ∈ [threshold, counter], locals'.get? slot = locals.get? slot := by
      intro slot member
      obtain ⟨cell, listed, rfl⟩ := List.mem_map.mp (scratch slot member)
      exact keeps.scratch cell listed
    have limit' := (unchanged threshold (by simp)).trans limit
    have counted' := (unchanged counter (by simp)).trans counted
    have stored : ∀ k', Agrees c₃.scope (locals'.set counter (.number k')) store' := fun k' =>
      agrees'.setScratch inside.slots (scratch counter (by simp)) _
    have keeps' : Keeps c.scope c₃.scope locals (locals'.set counter (.number (k.add .one))) := by
      refine Keeps.trans ⟨fun cell member => keeps.scratch cell ?_, keeps.result, keeps.empty⟩
        (.set _ _ (apart counter (by simp)) (List.mem_append_right _ (scratch counter (by simp))))
        (List.Subset.refl _)
      rw [opened.scratch]
      exact List.mem_append_left _ member
    rw [Nat.add_assoc (launch.entry + offset), Nat.add_assoc launch.entry]
    rw [Nat.add_assoc launch.entry] at advance
    refine leads_advance advance (fun back slot found locals n filled => ?_)
      (fun k' => inside.settled (stored k')) differs limit' counted' (inside.settled agrees')
      fun last more' => ?_
    · refine ⟨.number, .number n, ?_, filled, .inl rfl⟩
      exact .counter site.occurs amount (same ▸ first) second derivation (by omega) found
    rw [← Nat.add_assoc launch.entry, Nat.add_assoc (launch.entry + offset)]
    refine Plan.leads_jumpIf (show _ ≤ launch.base.code.size by omega) again
      ((inside.settled (stored _)).watched again (by simp) _ _) (fun less => ?_) (fun done' => ?_)
      fun other => absurd rfl (other _)
    · have again' : (k.add .one).less n = true := Value.boolean.inj less
      rw [Nat.add_comm _ (launch.entry + offset)]
      refine ih (last + 1) _ store' w' (k.add .one) (by omega) (stored _)
        (by rwa [Locals.get?_set_ne _ _ _ differs]) (Locals.get?_set_self ..)
        (fun store'' w'' locals'' last' done'' agrees'' keeps'' more'' => ?_)
        fun halt store'' w'' locals'' done'' => bad halt store'' w'' locals'' ?_
      · refine good store'' w'' locals'' last' ?_ agrees''
          (keeps'.trans keeps'' (List.Subset.refl _)) (by omega)
        rw [Perform.bind_ok done, if_pos again']
        exact done''
      · rw [Perform.bind_ok done, if_pos again']
        exact done''
    · have finished : ¬(k.add .one).less n = true := by
        rw [Value.boolean.inj done']
        exact Bool.false_ne_true
      rw [Nat.add_assoc (launch.entry + offset)]
      refine Plan.leads_jump (show _ ≤ launch.base.code.size by omega) leave
        ((inside.settled (stored _)).watched leave (by simp) _ _) ?_
      rw [Nat.add_comm _ (launch.entry + offset)]
      refine good store' w' _ (last + 2) ?_ (stored _) keeps' (by omega)
      rw [Perform.bind_ok done, if_neg finished]
      rfl

theorem executes_times
    (site : launch.Site offset (.node (.times count body) want) c
      (Fragment.countedLoop x.code threshold counter y.code ++ c'.frees))
    (amount : Yields (.operand count .number .repeatCount) { c with scope := c.scope.enter } x c₁)
    (first : Compile.allocateScratch c₁ = .ok (threshold, c₂))
    (second : Compile.allocateScratch c₂ = .ok (counter, c₃))
    (derivation : Yields (.block body) c₃ y c') (agrees : Agrees c.scope locals store)
    (typed : Typed c.prior locals)
    (inner : launch.Inside c₃ → ∀ locals store, Agrees c₃.scope locals store →
      launch.Executes (launch.entry + offset + Fragment.roundStart x.code threshold counter) locals
        store (.block body) c₃ y c') :
    launch.Executes (launch.entry + offset) locals store (.node (.times count body) want) c
      ⟨some .void, Fragment.countedLoop x.code threshold counter y.code ++ c'.frees⟩ c'.left := by
  have same := amount.unchanged site.plain.outside (by simp [Task.Evaluates])
  have begins := same ▸ first
  obtain ⟨inside, opened, differs, apart⟩ := site.toInside.loop begins second
  have steady := (derivation.growth inside.tidy).2 trivial
  have inside' := inside.yields derivation steady.procedures
  have opened' := opened
  rw [← steady.scope] at opened'
  have agreesInner : ∀ {locals store}, Agrees c.scope locals store → Agrees c₃.scope locals store :=
    fun agrees => ⟨by rw [opened.bindings]; exact agrees.held, agrees.result⟩
  have agreesOuter :
      ∀ {locals store}, Agrees c₃.scope locals store → Agrees c.scope locals store := by
    intro locals store agrees
    have held := agrees.held
    rw [opened.bindings] at held
    exact ⟨held, agrees.result⟩
  have scope : c'.left.scope = c.scope := opened'.leave_scope site.tidy
  have countSite := site.first site.toInside.enter .timesCount
    (Fragment.places_countedLoop site.placed).1
  have agreesCount : Agrees c.scope.enter locals store := ⟨agrees.held, agrees.result⟩
  have safe :=
    amount.safe countSite.plain agreesCount.describes (typed.filled agreesCount) (by simp)
  intro _ stack steps w good bad
  simp only [perform] at good bad
  -- In the end the slots of the loop are freed.
  have finish : ∀ locals' store' w' later, Agrees c.scope locals' store' →
      Keeps c.scope c₃.scope locals locals' → steps ≤ later →
      perform launch.rules c.prior (.times count body) store w = ((.ok (), store'), w') →
      launch.plan.Leads (launch.plan.state (launch.entry + offset +
        (Fragment.skipped x.code threshold counter y.code + 1)) stack locals' later) w' := by
    intro locals' store' w' later agrees' keeps more done
    rw [← Fragment.size_countedLoop]
    refine leads_leave site.toInside inside' opened' agrees' (spells_frees site.placed)
      fun last locals'' more' agrees'' keeps' => ?_
    rw [Nat.add_assoc, ← Fragment.size_append]
    simp only [perform] at done
    rw [steady.scope] at keeps'
    exact good () store' w' [] locals'' last done
      ⟨rfl, scope ▸ agrees'', by rw [scope]; exact keeps' locals keeps⟩ (Nat.le_trans more more')
  simp only [perform] at finish
  have fresh : launch.Fresh offset (.operand count .number .repeatCount)
      { c with scope := c.scope.enter } locals := Typed.fresh typed
  refine amount.simulates agreesCount countSite fresh (by simp) stack steps w
    (fun found w' values later done makes more => ?_) fun halt w' done => ?_
  · obtain ⟨value, rfl, rfl⟩ := makes
    have isNumber := safe w
    rw [done] at isNumber
    obtain ⟨n, ⟨⟩⟩ := OfType.number isNumber
    have counted : Interpreter.amount launch.rules store c.prior count w = (.ok n, w') := by
      rw [Interpreter.amount, Evaluate.bind_ok done]
      rfl
    have scratch : ∀ slot ∈ [threshold, counter], slot ∈ c₃.scope.scratch.map (·.1) := by
      intro slot member
      rw [opened.scratch, List.map_append]
      exact List.mem_append_right _ (by simpa using member)
    have limited := (agreesInner agrees).setScratch inside.slots (scratch threshold (by simp))
      (.number n)
    refine leads_prepare site.placed (site.settled agrees) (inside.settled limited)
      (fun nothing last more' => ?_) fun something last more' => ?_
    · refine finish locals store w' last agrees (.refl _ _ _) (by omega) ?_
      rw [Perform.bind_ok (observe_ok counted), if_pos nothing]
      rfl
    · have rounds : ¬n.lessEq .zero = true := by simp [something]
      have keeps : Keeps c.scope c₃.scope locals ((locals.set threshold (.number n)).set counter
          (.number .zero)) :=
        Keeps.trans
          (.set _ _ (apart threshold (by simp))
            (List.mem_append_right _ (scratch threshold (by simp))))
          (.set _ _ (apart counter (by simp)) (List.mem_append_right _ (scratch counter (by simp))))
          (List.Subset.refl _)
      refine leads_repeat site amount begins second same derivation (inner inside)
        launch.rules.rounds last _ store w' .zero (Nat.le_add_left _ _)
        (limited.setScratch inside.slots (scratch counter (by simp)) _)
        (by rw [Locals.get?_set_ne _ _ _ differs, Locals.get?_set_self]) (Locals.get?_set_self ..)
        (fun store' w'' locals' last' done' agrees' keeps' more'' => ?_)
        fun halt store' w'' locals' done' => bad halt store' w'' locals' ?_
      · refine finish locals' store' w'' last' (agreesOuter agrees')
          (keeps.trans keeps' (List.Subset.refl _)) (by omega) ?_
        rw [Perform.bind_ok (observe_ok counted), if_neg rounds]
        exact done'
      · rw [Perform.bind_ok (observe_ok counted), if_neg rounds]
        exact done'
  · refine bad halt store w' locals (Perform.bind_error (observe_error (Evaluate.bind_error done)))
      (fun stuck => ?_) (site.keep agrees)
    have notStuck := safe w
    rw [done] at notStuck
    exact absurd stuck notStuck

end Loops

section Sequences

theorem Acts.congr {α : Type} {start finish : Nat} {given : List Value} {work other : Perform σ α}
    {after : α → List Value → Locals → Store → Prop} (same : ∀ w, other store w = work store w)
    (acts : launch.Acts start finish locals store given work after) :
    launch.Acts start finish locals store given other after := by
  intro stack count w good bad
  refine acts stack count w (fun a store' w' values locals' later done => ?_)
    fun halt store' w' locals' done => bad halt store' w' locals' ((same w).trans done)
  exact good a store' w' values locals' later ((same w).trans done)

theorem performAll_cons (rules : Rules σ) (prior : Ty) (n : Node) (more : List Node) (store : Store)
    (w : σ) :
    performAll rules prior (n :: more) store w = (do
      perform rules prior n
      performAll rules (typeOf rules.hosts store prior n) more) store w := by
  rw [performAll]
  rfl

theorem perform_expression {rules : Rules σ} {prior : Ty} {n : Node}
    (isExpression : n.isExpression) :
    perform rules prior n = (do
      match ← observe fun store => evaluate rules store prior n none with
      | some result => modify ({ · with result := some result })
      | none => return ()) := by
  cases n with
  | declare | assign | branch | loop | times | define | giveBack | setItem => cases isExpression
  | _ =>
    unfold perform
    rfl

/-- Outside of procedures, a statement that has a value stores it as the result. -/
theorem finishStatement_outside {n : Node} {code : Fragment} (outside : c.draft = none)
    (done : finishStatement n x c = .ok (code, c')) :
    x.type = some c'.prior ∧ c' = { c with prior := c'.prior } ∧
      (c'.prior = .void ∧ code = x.code ∨
        c'.prior ≠ .void ∧ code = x.code ++ [Instruction.store resultSlot]) := by
  obtain ⟨type, between, -, ⟨same, rfl⟩ | ⟨-, -, drafting, -⟩, rest⟩ := finishStatement_ok done
  · rcases rest with ⟨void, rfl, rfl⟩ | ⟨slot, after, filled, found, rfl, rfl⟩
    · exact ⟨void ▸ same, rfl, .inl ⟨rfl, rfl⟩⟩
    · obtain ⟨-, rfl, rfl⟩ | ⟨draft, inside, -⟩ | ⟨draft, -, inside, -⟩ := resultSlot_ok found
      · exact ⟨same, rfl, .inr ⟨filled, rfl⟩⟩
      · rw [outside] at inside; cases inside
      · rw [outside] at inside; cases inside
  · rw [outside] at drafting
    cases drafting

/-- An expression that stands as a statement. -/
theorem acts_expression {n : Node} {code : Fragment}
    (derivation : Yields (.node n none) c x c) (isExpression : n.isExpression = true)
    (site : launch.Site offset (.node n none) c x.code)
    (placed : launch.base.code.Places (launch.entry + offset) code)
    (finished : finishStatement n x c = .ok (code, c')) (agrees : Agrees c.scope locals store)
    (typed : Typed c.prior locals) :
    launch.Acts (launch.entry + offset) (launch.entry + offset + code.size) locals store []
      (perform launch.rules c.prior n) fun _ values locals' store' =>
        Done c.scope c.scope locals values locals' store' ∧ Typed c'.prior locals' := by
  obtain ⟨type, -, shape⟩ := finishStatement_outside site.plain.outside finished
  have carries := derivation.simulates agrees site typed.fresh isExpression
  have safe := derivation.safe site.plain agrees.describes (typed.filled agrees) isExpression
  have observed :=
    Carries.observed (fun store => evaluate launch.rules store c.prior n none) carries
      safe (site.keep agrees)
  rw [type] at observed
  rw [perform_expression isExpression]
  rcases shape with ⟨void, rfl⟩ | ⟨filled, rfl⟩
  · rw [← Nat.add_zero (launch.entry + offset + x.code.size)]
    refine observed.bind fun found values locals' store' => ?_
    rintro ⟨⟨rfl, shaped⟩, -, rfl, rfl⟩
    obtain rfl := shaped.mpr (by rw [void])
    exact .pure ⟨⟨rfl, agrees, .refl _ _ _⟩, fun available => absurd void available⟩
  · rw [Fragment.size_append, ← Nat.add_assoc]
    refine observed.bind fun found values locals' store' => ?_
    rintro ⟨⟨rfl, shaped⟩, same, rfl, rfl⟩
    obtain ⟨value, rfl, same⟩ := same.some (by simpa using filled)
    refine (acts_store (site.settled agrees) (placed.fetches rfl)).imp
      fun _ values locals' store' => ?_
    rintro ⟨rfl, rfl, rfl⟩
    refine ⟨⟨rfl, agrees.setResult site.slots value, fun cell member => ?_, fun _ => ?_,
      fun slot other _ none => ?_⟩, fun _ => ?_⟩
    · refine Locals.get?_set_ne _ _ _ (site.slots.ne_result ?_)
      exact List.mem_append_right _ (List.mem_map_of_mem member)
    · rw [Locals.get?_set_self]
      rfl
    · rwa [Locals.get?_set_ne _ _ _ other]
    · exact ⟨value, Locals.get?_set_self .., (Option.some.inj same).symm⟩

/-- A statement and those after it. -/
theorem executes_moreStatements {n : Node} {more : List Node} {y : Compiled} {code : Fragment}
    {c₂ : Compiler} (tidy : c.scope.Tidy) (first : Yields (.node n none) c x c₁)
    (finished : finishStatement n x c₁ = .ok (code, c₂)) (agrees : Agrees c.scope locals store)
    (plain : c.Plain launch.rules.hosts) (others : Yields (.statements more) c₂ y c')
    (acts : launch.Acts (launch.entry + offset) (launch.entry + offset + code.size) locals store []
      (perform launch.rules c.prior n) fun _ values locals' store' =>
        Done c.scope c₁.scope locals values locals' store' ∧ Typed c₂.prior locals')
    (rest : ∀ locals store, Agrees c₂.scope locals store → Typed c₂.prior locals →
      launch.Executes (launch.entry + offset + code.size) locals store (.statements more) c₂ y c') :
    launch.Executes (launch.entry + offset) locals store (.statements (n :: more)) c
      ⟨none, code ++ y.code.shift code.size⟩ c' := by
  have grows := first.grows tidy
  have outside : c₁.draft = none := by
    have kept := grows.draft
    rw [plain.outside] at kept
    exact kept.eq_none
  obtain ⟨type, after, -⟩ := finishStatement_outside outside finished
  have scope : c₂.scope = c₁.scope := by rw [after]
  have found : typeOf launch.rules.hosts store c.prior n = c₂.prior :=
    Option.some.inj ((first.type_eq plain agrees.describes).symm.trans type)
  refine Acts.congr (performAll_cons launch.rules c.prior n more store) ?_
  rw [found, Fragment.size_append, Fragment.size_shift, ← Nat.add_assoc]
  refine acts.bind fun _ values locals' store' => ?_
  rintro ⟨⟨rfl, agrees', keeps⟩, typed⟩
  refine (rest locals' store' (scope ▸ agrees') typed).imp fun last values' locals'' store'' => ?_
  rintro ⟨⟨rfl, agrees'', keeps'⟩, sameType, typed'⟩
  have later := others.grows (scope ▸ grows.tidy tidy)
  refine ⟨⟨rfl, agrees'', keeps.trans ⟨fun cell member => keeps'.scratch cell ?_, keeps'.result,
    keeps'.empty⟩ (scope ▸ later.slots_subset)⟩, sameType, typed'⟩
  rwa [scope, grows.scratch]

end Sequences

end Launch

/-- The task defines no procedure: none of its nodes is a definition, or they stand in a block,
where there cannot be one. -/
def Task.Procedureless (c : Compiler) : Task → Prop
  | .node n _ => 0 < c.scope.depth ∨ n.isDefinition = false
  | .statements nodes => 0 < c.scope.depth ∨ ∀ n ∈ nodes, n.isDefinition = false
  | _ => True

/-- The result has the type that is known when the task starts. A block starts without one. -/
def Task.Begins (prior : Ty) (locals : Locals) : Task → Prop
  | .block _ => True
  | _ => Launch.Typed prior locals

open Launch in
/-- The code of statements does what the interpreter does, wherever it stands in a unit. -/
theorem Yields.executes {launch : Launch σ} {task : Task} {c c' : Compiler} {x : Compiled}
    {offset : Nat} {locals : Locals} {store : Store} (derivation : Yields task c x c')
    (site : launch.Site offset task c x.code) (none : task.Procedureless c)
    (agrees : Agrees c.scope locals store) (typed : task.Begins c.prior locals) :
    launch.Executes (launch.entry + offset) locals store task c x c' := by
  induction derivation generalizing offset locals store with
  | declare invisible allocated initial same =>
    intro _
    exact acts_declare site invisible allocated initial same agrees typed
  | assignParam isParam =>
    rw [Compiler.param?, site.plain.outside] at isParam
    cases isParam
  | assignVariable noParam known value =>
    intro _
    have same := value.unchanged site.plain.outside trivial
    subst same
    exact acts_assign site noParam known value agrees typed
  | branch condition block _ inner =>
    have same := condition.unchanged site.plain.outside (by simp [Task.Evaluates])
    subst same
    have steady := (block.growth site.tidy).2 trivial
    have body := inner (site.part site.toInside (.branchBody condition)
      (Fragment.places_conditional site.placed).2) trivial agrees trivial
    rw [← Nat.add_assoc] at body
    exact executes_branch site condition agrees typed steady.scope body
  | alternative condition block otherwise _ inner other =>
    have same := condition.unchanged site.plain.outside (by simp [Task.Evaluates])
    subst same
    obtain ⟨-, second, -, third⟩ := Fragment.places_alternative site.placed
    have steady := (block.growth site.tidy).2 trivial
    have inside := site.toInside.yields block steady.procedures
    have steady' := (otherwise.growth inside.tidy).2 trivial
    have body :=
      inner (site.part site.toInside (.branchBody condition) second) trivial agrees trivial
    have body' := other (site.part inside (.branchOther condition block) third) trivial
      (steady.scope ▸ agrees) trivial
    rw [← Nat.add_assoc] at body body'
    exact executes_alternative site condition agrees typed steady.scope
      (steady'.scope.trans steady.scope) body body'
  | loop condition block _ inner =>
    have same := condition.unchanged site.plain.outside (by simp [Task.Evaluates])
    subst same
    have steady := (block.growth site.tidy).2 trivial
    refine executes_loop site condition agrees typed steady.scope fun locals store agrees => ?_
    have body := inner (site.part site.toInside (.loopBody condition)
      (Fragment.places_whileLoop site.placed).2.1) trivial agrees trivial
    rwa [← Nat.add_assoc] at body
  | times amount first second block _ inner =>
    refine executes_times site amount first second block agrees typed
      fun inside locals store agrees => ?_
    obtain ⟨-, -, -, -, placed, -⟩ := Fragment.places_countedLoop site.placed
    have body :=
      inner (site.part inside (.timesBody amount first second) placed) trivial agrees trivial
    rwa [← Nat.add_assoc] at body
  | define started =>
    rcases none with deep | other
    · have top := (startDraft_ok started).2.1
      omega
    · cases other
  | giveBack inside =>
    rw [site.plain.outside] at inside
    cases inside
  | setItem items found place value =>
    intro _
    have same := items.unchanged site.plain.outside (by simp [Task.Evaluates])
    subst same
    have same' := place.unchanged site.plain.outside (by simp [Task.Evaluates])
    subst same'
    have same'' := value.unchanged site.plain.outside trivial
    subst same''
    exact acts_setItem site items found place value agrees typed
  | noStatements =>
    rw [Executes, performAll]
    exact .pure ⟨⟨rfl, agrees, .refl _ _ _⟩, rfl, typed⟩
  | @moreStatements n more c x c₁ code c₂ y c' first finished others inner rest =>
    have here : 0 < c.scope.depth ∨ n.isDefinition = false :=
      none.imp_right fun all => all n List.mem_cons_self
    have grows := first.grows site.tidy
    have inside := site.toInside.yields first (first.procedures_eq site.tidy here)
    obtain ⟨type, after, shape⟩ := finishStatement_outside inside.plain.outside finished
    have inside₂ : launch.Inside c₂ := after ▸ inside.reprior c₂.prior
    have depth : c₂.scope.depth = c.scope.depth := by rw [after]; exact grows.depth
    have placed : launch.base.code.Places (launch.entry + offset) code := site.placed.left
    have placedFirst : launch.base.code.Places (launch.entry + offset) x.code := by
      rcases shape with ⟨-, same⟩ | ⟨-, same⟩
      · exact same ▸ placed
      · rw [same] at placed
        exact placed.left
    have siteFirst := site.first site.toInside .firstStatement placedFirst
    refine executes_moreStatements site.tidy first finished agrees site.plain others ?_
      fun locals store agrees typed => ?_
    · cases isExpression : n.isExpression with
      | true =>
        have same := first.unchanged site.plain.outside isExpression
        subst same
        exact acts_expression first isExpression siteFirst placed finished agrees typed
      | false =>
        have void : x.type = some .void := by
          refine Decidable.byContradiction fun filled => ?_
          rw [first.isExpression filled] at isExpression
          cases isExpression
        have prior : c₂.prior = .void := Option.some.inj (type.symm.trans void)
        obtain rfl : code = x.code := by
          rcases shape with ⟨-, same⟩ | ⟨filled, -⟩
          · exact same
          · exact absurd prior filled
        refine (inner siteFirst here agrees typed isExpression).imp
          fun _ values locals' store' reached => ?_
        exact ⟨reached, fun available => absurd prior available⟩
    · have next := rest (site.part inside₂ (.moreStatements first finished) (site.placed.last rfl))
        (by rw [Task.Procedureless, depth]; exact none.imp_right fun all n member =>
          all n (List.mem_cons_of_mem _ member)) agrees typed
      rwa [← Nat.add_assoc] at next
  | block statements inner =>
    refine executes_block site statements agrees (inner ?_ (.inl (Nat.succ_pos _)) ?_ ?_)
    · exact site.first site.toInside.entered .block site.placed.left
    · exact ⟨agrees.held, agrees.result⟩
    · exact fun available => absurd rfl available
  | operand | valueOf | valueFound | initialValue | initialDefault | giveNothing | giveDeclared
  | giveFound | noArguments | moreArguments | noItems | moreItems => trivial
  | _ => intro impossible; cases impossible

end Primer
