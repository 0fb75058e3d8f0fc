import Mathlib.Data.List.Basic
import Primer.Proofs.CallFrames
import Primer.Proofs.Compilation.Arguments
import Primer.Proofs.Compilation.Declarations
import Primer.Proofs.Execution.Evaluation
import Primer.Proofs.OperandStack

/-!
How arguments reach the parameters of a procedure. The calling code evaluates the arguments from
left to right, and each leaves its value on the stack; the procedure starts with stores that take
the values off again, the last one first. No two parameters have the same slot. So when the body
starts, every parameter holds the value of its argument, the stack is what it was before the first
argument, and nothing else has changed.
-/

set_option autoImplicit false
set_option relaxedAutoImplicit false

namespace Primer

variable {σ : Type} {hosts : HostTable (StateM σ)}

namespace Machine

/-- Stores one after another take values off the stack, each into its slot. -/
theorem Reaches.stored {slots : List UInt8} {count : Nat} {m last : Machine} {w w' : σ}
    {values rest : List Value} (reaches : Reaches hosts count m w last w')
    (few : count ≤ slots.length) (distinct : slots.Nodup)
    (stores : ∀ k slot, slots[k]? = some slot →
      m.code.decodeAt (m.ip + 2 * k) = .ok (.store slot, m.ip + 2 * (k + 1)))
    (stack : m.stack = values ++ rest) (filled : values.length = slots.length) :
    last.ip = m.ip + 2 * count ∧ last.stack = values.drop count ++ rest ∧
      (∀ entry ∈ (slots.zip values).take count, last.locals.get? entry.1 = some entry.2) ∧
      ∀ slot ∉ slots, last.locals.get? slot = m.locals.get? slot := by
  induction slots generalizing count m w values with
  | nil =>
    obtain rfl : count = 0 := Nat.le_zero.mp few
    cases reaches
    exact ⟨rfl, stack, by simp, fun _ _ => rfl⟩
  | cons slot more ih =>
    cases reaches with
    | refl => exact ⟨rfl, stack, by simp, fun _ _ => rfl⟩
    | @turn count _ next _ _ _ _ turns others =>
      obtain ⟨value, top, locals, ip, code⟩ := turn_stored turns (stores 0 slot rfl)
      cases values with
      | nil => cases filled
      | cons first values =>
        obtain ⟨rfl, left⟩ := List.cons.inj (stack.symm.trans top)
        obtain ⟨fresh, distinct⟩ := List.nodup_cons.mp distinct
        obtain ⟨lands, under, held, spared⟩ := ih others (Nat.le_of_succ_le_succ few) distinct
          (fun k other found => by
            have decoded := stores (k + 1) other found
            rwa [code, ip, show m.ip + 2 * (0 + 1) + 2 * k = m.ip + 2 * (k + 1) by omega,
              show m.ip + 2 * (0 + 1) + 2 * (k + 1) = m.ip + 2 * (k + 1 + 1) by omega])
          left.symm (Nat.succ.inj filled)
        refine ⟨by omega, under, fun entry member => ?_, fun other outside => ?_⟩
        · rw [List.zip_cons_cons, List.take_succ_cons] at member
          rcases List.mem_cons.mp member with rfl | later
          -- The stores that follow have other slots.
          · rw [spared _ fresh, locals, Locals.get?_set_self]
          · exact held entry later
        · rw [List.mem_cons, not_or] at outside
          rw [spared other outside.2, locals, Locals.get?_set_ne _ _ _ outside.1]

end Machine

/-- In code that starts with stores, each store has its place. -/
theorem Fragment.at?_stores {slots : List UInt8} {k : Nat} {slot : UInt8}
    (found : slots[k]? = some slot)
    (more : Fragment) : at? (slots.map Instruction.store ++ more) (2 * k) = some (.store slot) := by
  induction slots generalizing k with
  | nil => cases found
  | cons first others ih =>
    cases k with
    | zero =>
      cases found
      rfl
    | succ k =>
      rw [Nat.mul_succ, Nat.add_comm]
      exact (at?_append_right [.store first] _ _).trans (ih found)

/-- The parameters of a procedure have slots of their own. -/
theorem Compiler.Ready.params_nodup {c : Compiler} (ready : c.Ready) {p : Procedure}
    (member : p ∈ c.procedures) : (p.params.map (·.slot)).Nodup := by
  have owned := (List.nodup_append.mp ready.accounts.distinct).1
  have slots := (List.nodup_append.mp (List.nodup_append.mp owned).2.1).2.1
  obtain ⟨before, after, split⟩ := List.append_of_mem member
  rw [split, List.flatMap_append, List.flatMap_cons] at slots
  have own := (List.nodup_append.mp (List.nodup_append.mp slots).2.1).1
  exact (List.nodup_append.mp own).1

namespace Layout

variable {l : Layout} {ground : List Value} {r : Routine} {m : Machine} {outer : List Machine}

/-- Where the stack is as high as is noted, only procedures that can be called are called. -/
theorem Level.callable (level : l.Level hosts ground r outer m) (levelled : l.Levelled hosts)
    {offset : Nat} {p : Procedure} {code : Fragment} (here : m.ip = r.base + offset)
    (found : r.code.at? offset = some (.call p.address)) (held : l.holds p code) : p.Callable := by
  obtain ⟨floor, values, back, note, offset', below, marks, here', stack, count⟩ := level
  obtain rfl : offset = offset' := Nat.add_left_cancel (here.symm.trans here')
  obtain ⟨takes, gives, moves, -⟩ := (marks offset _ found).next rfl
  exact (levelled.called held moves).1

end Layout

/-- Values have come into the parameters of a procedure that was called, the first into the first
and so on. The stack is what was below them, and all other slots are as they were at the call. -/
structure Procedure.Receives (p : Procedure) (values rest : List Value) (caller m : Machine) :
    Prop where
  held : ∀ (i : Nat) (param : Parameter Ty), p.params[i]? = some param →
    ∃ value, values[i]? = some value ∧ m.locals.get? param.slot = some value
  stack : m.stack = rest
  others : ∀ slot, slot ∉ p.params.map (·.slot) → m.locals.get? slot = caller.locals.get? slot

/-- The code that is executed while some calls are active: where it starts and its source, which is
the unit, or the body of the procedure that was called last. -/
inductive Executing (program : Program) (before after : Compiler) (code : Bytecode) :
    List Machine → Nat → Task → Compiler → Prop
  | unit : Executing program before after code [] after.libraryEnd (.statements program) before
  | body {caller : Machine} {outer : List Machine} {back : Nat} {p : Procedure} {m : Making}
      (call : code.decodeAt caller.ip = .ok (.call p.address, back))
      (makes : after.Makes Node.DeclaresType p m) :
      Executing program before after code (caller :: outer) (p.address + m.prologue.size)
        (.block m.body) m.started

/-- What the body of a procedure calls is a procedure of the name that is called there. -/
theorem Compiler.Makes.named {allowed : Node → Prop} {c d : Compiler} {p : Procedure}
    {making : Making} (makes : c.Makes allowed p making) {address stop : Nat} {name : String}
    (site : (Task.block making.body).CallSite making.started address name d stop) :
    ∃ q ∈ c.procedures, q.name = name ∧ q.address = address := by
  obtain ⟨after, less, more, split, -⟩ := makes.region
  rw [split]
  rcases site.named making.compiles making.since with ⟨q, member, named⟩ | ⟨draft, inside, named⟩
  · rw [making.procedures] at member
    exact ⟨q, List.mem_append_left _ member, named⟩
  · rw [making.drafted] at inside
    cases inside
    rw [← makes.finished]
    exact ⟨_, List.mem_append_right _ List.mem_cons_self, named⟩

namespace Layout.Of

variable {program : Program} {before after : Compiler} {top : Fragment} {l : Layout}
  {claim : Layout.Claim} {ground : List Value} {r : Routine} {m : Machine} {outer : List Machine}

/-- A call that is executed has its place in the source of the code that is executed, and the codes
of its arguments stand in front of it. -/
theorem exists_arguments (unit : Layout.Of Node.DeclaresType after top l)
    (shelf : Shelf Node.DeclaresType after.hosts after.procedures after.library)
    (known : ∀ name, after.hosts.lookup name = hosts.signature? name)
    (derivation : Yields (.statements program) before ⟨none, top⟩ after) (ready : before.Ready)
    (levelled : l.Levelled hosts) (active : l.Active claim r m outer)
    (level : ∀ {r callers s}, claim r callers s → l.Level hosts ground r callers s)
    {offset target : Nat} (found : r.code.at? offset = some (.call target)) :
    ∃ base task start place name args want d parts,
      Executing program before after l.buffer outer base task start ∧
      (∃ p ∈ after.procedures, p.name = name ∧ p.address = target) ∧
      Occurs task start place (.node (.call name args) want) d ∧ Laid task start place args parts ∧
      ∃ back gives distance,
        (∀ part ∈ parts, Fragment.Annotated (l.trade hosts back).heights part 0 1) ∧
        (l.trade hosts back).Moves (.call target) args.length gives ∧
        r.code.Encloses (Fragment.sequence (parts ++ [[Instruction.call target]])) distance ∧
        r.base + distance = base + place ∧
        offset = distance + Fragment.size (Fragment.sequence parts) := by
  have ends {parts : List Fragment} {distance : Nat}
      (stops : offset + (Instruction.call target).size =
        distance + Fragment.size (Fragment.sequence (parts ++ [[Instruction.call target]]))) :
      offset = distance + Fragment.size (Fragment.sequence parts) := by
    rw [Fragment.sequence_call, Fragment.size_append, Fragment.size_cons,
      Fragment.size_nil] at stops
    omega
  cases active with
  | top =>
    rw [unit.main] at found ⊢
    obtain ⟨name, d, site⟩ := derivation.sited.followed (i := .ret) rfl offset found
    obtain ⟨place, args, want, parts, gives, occurs, laid, each, encloses, stops, moves⟩ :=
      site.laid derivation (.refl ready.tidy ready.accounts ready.outside) trivial
        (unit.knows_main shelf known derivation ready)
    have named : ∃ p ∈ after.procedures, p.name = name ∧ p.address = target := by
      rcases site.named derivation (.refl ready.tidy ready.accounts ready.outside) with
        defined | ⟨draft, inside, -⟩
      · exact defined
      · rw [(ready.yields derivation).outside] at inside
        cases inside
    exact ⟨_, _, _, place, name, args, want, d, parts, .unit, named, occurs, laid, 0, gives, place,
      each, moves, encloses.followed rfl, rfl, ends stops⟩
  | @called _ s _ _ p code back outside procedure call =>
    obtain ⟨offset', i, here, -, found', decoded⟩ := outside.fetch
    rw [call] at decoded
    obtain rfl := Layout.shift_eq_call (congrArg Prod.fst (Except.ok.inj decoded)).symm
    have callable := (level outside.claimed).callable levelled here found' procedure
    rw [unit.holds] at procedure
    obtain ⟨making, makes, rfl⟩ := procedure
    obtain ⟨stop, behind, name, d, site⟩ := making.sited target offset found
    obtain ⟨place, args, want, parts, gives, occurs, laid, each, encloses, stops, moves⟩ :=
      site.laid making.compiles making.since trivial (unit.knows_body shelf known makes callable)
    exact ⟨_, _, _, place, name, args, want, d, parts, .body call makes, makes.named site, occurs,
      laid, _, gives, making.prologue.size + place, each, moves, making.encloses.trans encloses,
      (Nat.add_assoc ..).symm, ends (by omega)⟩

/-- A procedure that is called with values on the stack stores the last of them first, and has them
in its parameters when its body starts. -/
theorem parameters_filled (unit : Layout.Of Node.DeclaresType after top l) {p : Procedure}
    {making : Making}
    (makes : after.Makes Node.DeclaresType p making) (distinct : (p.params.map (·.slot)).Nodup)
    {caller : Machine} {w₁ w₂ : σ} {back count : Nat} (buffer : caller.code = l.buffer)
    (call : l.buffer.decodeAt caller.ip = .ok (.call p.address, back)) {values rest : List Value}
    (stack : caller.stack = values.reverse ++ rest) (filled : values.length = p.params.length)
    (few : count ≤ p.params.length) (reaches : Machine.Reaches hosts (count + 1) caller w₁ m w₂) :
    m.ip = p.address + 2 * count ∧ (count = p.params.length → p.Receives values rest caller m) := by
  have held : l.holds p making.code := unit.holds ▸ ⟨making, makes, rfl⟩
  obtain ⟨more, laid⟩ : ∃ more, making.code =
      (p.params.map (·.slot)).reverse.map Instruction.store ++ more := by
    rw [Making.code, Compile.procedureCode_eq, makes.finished, Fragment.sequence_cons]
    exact ⟨_, rfl⟩
  cases reaches with
  | turn turns others =>
    have decoded : caller.code.decodeAt caller.ip = .ok (.call p.address, back) := buffer ▸ call
    obtain ⟨begins, code, locals⟩ := Machine.turn_called turns decoded
    have same := turn_stack turns decoded (.inl rfl)
    obtain ⟨lands, left, stored, spared⟩ := others.stored (by simpa using few)
      ((List.reverse_perm _).nodup_iff.mpr distinct)
      (fun k slot found => by
        have decoded := (l.stands p making.code held).decodes
          ((congrArg (Fragment.at? · (2 * k)) laid).trans (Fragment.at?_stores found more))
        rw [code, buffer, begins]
        exact decoded)
      (same.trans stack) (by simpa using filled)
    refine ⟨by rw [lands, begins], ?_⟩
    rintro rfl
    refine ⟨fun i param listed => ?_, ?_, fun slot outside => ?_⟩
    · have inside : i < values.length := filled ▸ (List.getElem?_eq_some_iff.mp listed).1
      obtain ⟨value, given⟩ : ∃ value, values[i]? = some value :=
        ⟨_, List.getElem?_eq_getElem inside⟩
      refine ⟨value, given, stored (param.slot, value) ?_⟩
      rw [List.take_of_length_le (by simp [filled]), List.zip_eq_zipWith,
        ← List.reverse_zipWith (by simp [filled]), List.mem_reverse, ← List.zip_eq_zipWith]
      exact List.mem_of_getElem? (List.getElem?_zip_eq_some.mpr ⟨by simp [listed], given⟩)
    · rw [left, List.drop_of_length_le (by simp [filled])]
      rfl
    · rw [spared slot (by simpa using outside), locals]

end Layout.Of

namespace Session

variable {smooth : Bool} {s : Session (StateM σ)}

/-- Let the host keep its table, and let all definitions declare their types. When a call of a
procedure is executed, it has its place in the source of the code that is executed, where the
procedure is called by its name. The activation was at the start of the first argument before, and
from then on it has evaluated the arguments from left to right. When the body of the procedure
starts, each parameter holds the value of its argument, the stack is what it was before the first
argument, and all other slots are as they were at the call. -/
theorem Driven.arguments_passed
    (driven : Driven (· = hosts) (Program.Defines Node.DeclaresType) smooth s) {program : Program}
    (kind : Program.Defines Node.DeclaresType program) {code : Bytecode} {after : Compiler}
    (compiled : s.compiler.compile program = .ok (code, after)) (short : code.size < 0x80000000)
    {caller : Machine} {outer : List Machine} {w w₁ : σ} {target back : Nat}
    (passes : Machine.Passes s.hosts (s.machine.started code) w caller outer w₁)
    (call : code.decodeAt caller.ip = .ok (.call target, back)) :
    ∃ p making, p ∈ after.procedures ∧ p.address = target ∧ after.Makes Node.DeclaresType p making ∧
      making.prologue.size = 2 * p.params.length ∧
      ∃ base task start place args want d parts values first w₀,
        Executing program s.compiler after code outer base task start ∧
        Occurs task start place (.node (.call p.name args) want) d ∧ args.length = p.params.length ∧
        Laid task start place args parts ∧
        Machine.Passes s.hosts (s.machine.started code) w first outer w₀ ∧
        Machine.Evaluated s.hosts outer (base + place) parts values first w₀ caller w₁ ∧
        ∀ count m w₂, count ≤ p.params.length → Machine.Reaches s.hosts (count + 1) caller w₁ m w₂ →
          m.ip = p.address + 2 * count ∧
            (count = p.params.length → p.Receives values first.stack caller m) := by
  have table : s.hosts = hosts := driven.given
  rw [table] at passes ⊢
  obtain ⟨top, l, note, derivation, unit, rfl, shelf, known, levelled, start, marks⟩ :=
    driven.levelled_layout kind compiled short
  obtain ⟨buffer, inside⟩ := levelled.preparing passes rfl rfl driven.idle
    fun next w' => Layout.enters_level start marks rfl rfl
  obtain ⟨r, active⟩ : ∃ r, l.Active (l.Preparing hosts (s.machine.started l.buffer).stack
      (s.machine.started l.buffer) w caller outer w₁) r caller outer := by
    rcases inside with ⟨rfl, -, -⟩ | active
    -- A run starts at the jump to the entry point, which is no call.
    · obtain ⟨behind, entry⟩ := l.entry
      rw [show (s.machine.started l.buffer).ip = 0 from rfl, entry] at call
      cases call
    · exact active
  obtain ⟨offset, i, here, -, found, decoded⟩ := active.fetch
  rw [call] at decoded
  obtain rfl := Layout.shift_eq_call (congrArg Prod.fst (Except.ok.inj decoded)).symm
  obtain ⟨p, body, held, rfl⟩ := (active.member.stands.sound.uses _
    (Fragment.mem_plain.mpr ⟨Fragment.mem_of_at? found, rfl⟩)).2 _ rfl
  obtain ⟨base, task, begun, place, name, args, want, d, parts, executing, ⟨q, listed, rfl, same⟩,
    occurs, laid, height, gives, distance, each, moves, encloses, placed, ends⟩ :=
      unit.exists_arguments shelf known derivation driven.ready levelled active
        (fun claimed => claimed.1) found
  obtain ⟨-, count, -⟩ := levelled.called held moves
  obtain ⟨first, w₀, before, trail⟩ :=
    active.claimed.2 height distance parts p.address offset each encloses
      here (by omega) (by
        rw [Fragment.sequence_call, Fragment.size_append, ends]
        exact Nat.add_lt_add_left (Nat.lt_add_of_pos_right (Fragment.size_pos (by simp))) _)
  obtain ⟨values, evaluated⟩ := trail.evaluated (by omega)
  rw [unit.holds] at held
  have member := held.mem
  obtain ⟨making, makes, rfl⟩ := held
  obtain rfl := (driven.ready.compile compiled).library.address_inj listed member same
  have size : making.prologue.size = 2 * q.params.length := by
    rw [Making.prologue, makes.finished, Fragment.size_stores, List.length_reverse, List.length_map,
      Nat.mul_comm]
  have filled : values.length = q.params.length := by rw [evaluated.length, laid.length, count]
  refine ⟨q, making, member, rfl, makes, size, base, task, begun, place, args, want, d,
    parts, values, first, w₀, executing, occurs, count.symm, laid, before, placed ▸ evaluated, ?_⟩
  intro count m w₂ few reaches
  exact unit.parameters_filled makes ((driven.ready.compile compiled).params_nodup member)
    buffer call evaluated.stack filled few reaches

/-- The arguments of a call are calls of the same procedure, which use the same slots for their
parameters. The procedure is called out of a larger expression. -/
theorem Driven.arguments_passed_nested :
    let yes : Node := .literal (.boolean true)
    let no : Node := .literal (.boolean false)
    let program : Program :=
    [.define "pick" [⟨"a", some .boolean⟩, ⟨"b", some .boolean⟩] (some .boolean)
      [.giveBack (some (.var "a"))],
      .unary .invert (.call "pick" [.call "pick" [yes, no], .call "pick" [no, yes]])]
    let s : Session (StateM Unit) := .new {} {}
    ∃ (code : Bytecode) (after : Compiler) (caller first m : Machine) (back : Nat) (p : Procedure)
      (values : List Value) (parts : List Fragment) (base place : Nat),
      Driven (· = {}) (Program.Defines Node.DeclaresType) true s ∧
        Program.Defines Node.DeclaresType program ∧ s.compiler.compile program = .ok (code, after) ∧
        code.size < 0x80000000 ∧ Machine.Passes {} (s.machine.started code) () caller [] () ∧
        code.decodeAt caller.ip = .ok (.call 5, back) ∧ p ∈ after.procedures ∧ p.address = 5 ∧
        p.params.map (·.slot) = [1, 2] ∧
        Machine.Evaluated {} [] (base + place) parts values first () caller () ∧
        Machine.Reaches {} 3 caller () m () ∧ m.ip = 9 ∧ p.Receives values first.stack caller m ∧
        values = [.boolean true, .boolean false] := by
  intro yes no program s
  let look (code : Bytecode) (after : Compiler) (m : Machine) (callers : List Machine) (_ : Unit) :
      Bool :=
    code.size < 0x80000000 && callers.isEmpty &&
    (after.procedures.all fun p => p.params.map (·.slot) == [1, 2]) && code.readsCall m.ip 5 &&
    (m.turn s.hosts ()).1.getLeft?.any fun one =>
      (one.turn s.hosts ()).1.getLeft?.any fun two =>
        (two.turn s.hosts ()).1.getLeft?.any fun three =>
          ((three.locals.get? 1).any fun value => value.equal (.boolean true)) &&
            (three.locals.get? 2).any fun value => value.equal (.boolean false)
  have seen : ((s.compiler.compile program).toOption.bind fun made =>
      (Machine.passed? s.hosts (s.machine.started made.1) () 15).map fun there =>
        look made.1 made.2 there.1 there.2.1 there.2.2) = some true := by
    decide +kernel
  obtain ⟨code, after, caller, callers, ⟨⟩, compiled, passes, seen⟩ := exists_of_passed look seen
  simp only [look, Bool.and_eq_true, decide_eq_true_eq, beq_iff_eq, List.all_eq_true,
    Option.any_eq_true, List.isEmpty_iff] at seen
  obtain ⟨⟨⟨⟨short, rfl⟩, slots⟩, called⟩, one, turned₁, two, turned₂, m, turned₃,
    ⟨a, isA, same₁⟩, b, isB, same₂⟩ := seen
  obtain ⟨back, call⟩ := Bytecode.exists_of_readsCall called
  have equal {value : Value} {b : Bool} (same : value.equal (.boolean b) = true) :
      value = .boolean b := by
    cases value with
    | boolean a => rw [show a = b by simpa [Value.equal] using same]
    | _ => simp [Value.equal] at same
  have driven : Driven (· = {}) (Program.Defines Node.DeclaresType) true s := .fresh {} {}
  have declares : Program.Defines Node.DeclaresType program := by
    rintro name params returns body member
    rcases List.mem_cons.mp member with same | later
    · cases same
      rfl
    · cases List.mem_singleton.mp later
  obtain ⟨p, _, member, address, -, -, base, _, _, place, args, _, _, parts, values,
    first, ⟨⟩, -, -, arity, laid, -, evaluated, entered⟩ :=
    driven.arguments_passed declares compiled short passes call
  have own : p.params.map (·.slot) = [1, 2] := slots p member
  obtain ⟨x, y, params⟩ : ∃ x y, p.params = [x, y] :=
    List.length_eq_two.mp (by rw [← List.length_map, own]; rfl)
  obtain ⟨v, v', rfl⟩ : ∃ v v', values = [v, v'] :=
    List.length_eq_two.mp (by rw [evaluated.length, laid.length, arity, params]; rfl)
  have reaches : Machine.Reaches s.hosts 3 caller () m () :=
    .turn (Machine.turn_of_getLeft? turned₁) (.turn (Machine.turn_of_getLeft? turned₂)
      (.turn (Machine.turn_of_getLeft? turned₃) (.refl _ _)))
  obtain ⟨ip, receives⟩ := entered 2 m () (by rw [params]; rfl) reaches
  have receives := receives (by rw [params]; rfl)
  refine ⟨code, after, caller, first, m, back, p, [v, v'], parts, base, place, driven,
    declares, compiled, short, passes, call, member, address, own, evaluated,
    reaches, by rw [ip, address], receives, ?_⟩
  have slotted : [x.slot, y.slot] = [1, 2] := by simpa [params] using own
  obtain ⟨_, ⟨⟩, inFirst⟩ := receives.held 0 x (by rw [params]; rfl)
  obtain ⟨_, ⟨⟩, inSecond⟩ := receives.held 1 y (by rw [params]; rfl)
  simp only [List.cons.injEq, and_true] at slotted
  rw [slotted.1, isA] at inFirst
  rw [slotted.2, isB] at inSecond
  rw [← Option.some.inj inFirst, ← Option.some.inj inSecond, equal same₁, equal same₂]

end Session

end Primer
