import Primer.Proofs.Compilation.Embedding
import Primer.Proofs.Retention
import Primer.Proofs.Segments

/-!
How code comes into segments. The targets of jumps to code that comes later are left open and filled
in when the code has come to there, and the addresses in top-level code move when it is placed. All
of this comes to the code as fragments have it: the shapes of control flow, emitted with open
targets, leave the bytes that the finished fragments have, and the segments of the procedures and of
the top-level code, placed one behind the other, are the code of the unit.
-/

set_option autoImplicit false
set_option relaxedAutoImplicit false

namespace Primer

namespace Segment

variable {home : Option Nat} {s : Segment} {code : Fragment}

theorem append_nil (s : Segment) : s.append [] = s := by
  simp [append]

theorem append_append (s : Segment) (first second : List UInt8) :
    (s.append first).append second = s.append (first ++ second) := by
  have bytes : s.bytes ++ first ++ second = s.bytes ++ (first ++ second) := Array.ext' (by simp)
  rw [append, append, append, bytes]

/-- A value that has an encoded form is appended in it. -/
theorem emitValue_of_check {v : Value} (passes : v.check = .ok ()) :
    (s.emitValue v).1 = s.append v.write := by
  have encoded : v.encode = .ok v.write := by
    rw [Value.encode, passes]
    rfl
  rw [emitValue_eq, encoded]

theorem operand_eq {i : Instruction} (passes : i.check = .ok ()) :
    s.operand i = s.append i.writeOperand := by
  cases i with
  | push v => exact emitValue_of_check passes
  | callHost name => exact emitValue_of_check passes
  | jump | jumpIf | call | load | store | free | convert | getItem | makeList => rfl
  | _ => exact s.append_nil.symm

/-- The segment with instructions behind it whose targets are final. In a segment whose place is not
known the targets move with it. -/
def extend (s : Segment) (home : Option Nat) (code : Fragment) : Segment :=
  { s.append code.bytes with
    relocations := s.relocations ++ if home.isNone then code.fields s.size else [] }

@[simp] theorem size_extend (s : Segment) (home : Option Nat) (code : Fragment) :
    (s.extend home code).size = s.size + code.size := by
  rw [← Fragment.length_bytes]
  exact s.size_append _

@[simp] theorem here_extend : (s.extend home code).here home = s.here home + code.size := by
  rw [here, size_extend, here, Nat.add_assoc]

theorem extend_nil : s.extend home [] = s := by
  cases home <;> simp [extend, append, Fragment.bytes, Fragment.fields, Fragment.listing]

@[simp] theorem extend_extend {more : Fragment} :
    (s.extend home code).extend home more = s.extend home (code ++ more) := by
  have bytes :
      ((s.extend home code).extend home more).bytes = (s.extend home (code ++ more)).bytes := by
    show ((s.append code.bytes).append more.bytes).bytes = (s.append (code ++ more).bytes).bytes
    rw [Fragment.bytes_append, ← append_append]
  have relocations : ((s.extend home code).extend home more).relocations =
      (s.extend home (code ++ more)).relocations := by
    have size := s.size_extend home code
    cases home <;> simp [extend, Fragment.fields_append, ← size]
  exact Segment.ext bytes relocations

theorem extend_single {i : Instruction} :
    (s.extend home [i]).extend home code = s.extend home (i :: code) :=
  extend_extend

theorem extend_cons {i : Instruction} {more : Fragment} :
    (s.extend home (i :: code)).extend home more = s.extend home (i :: (code ++ more)) :=
  extend_extend

/-- An instruction that has an encoded form and is no jump is appended with its opcode and its
operand. -/
theorem instruct_eq (home : Option Nat) {i : Instruction} (straight : i.jump? = none)
    (passes : i.check = .ok ()) : s.instruct i = s.extend home [i] := by
  have fields : Fragment.fields s.size [i] = [] := by
    rw [Fragment.fields_cons, straight]
    rfl
  have bytes : s.instruct i = s.append (Fragment.bytes [i]) := by
    rw [instruct, operand_eq passes, opcode, byte, append_append, Fragment.bytes,
      List.flatMap_singleton]
    rfl
  rw [bytes, extend, fields]
  cases home <;> simp [append]

section Jumps

variable {op : Opcode} {unset filled : Instruction} {old target : Nat}

/-- A jump to an address that is known is appended as it is. -/
theorem goTo_eq (written : filled.write = op.byte :: Bytes.little 4 target)
    (jumps : filled.jump?.isSome) : s.goTo home op target = s.extend home [filled] := by
  have bytes : (s.goTo home op target).bytes = (s.append (Fragment.bytes [filled])).bytes := by
    rw [Fragment.bytes, List.flatMap_singleton, written, ← List.singleton_append, ← append_append]
    cases home <;> rfl
  refine Segment.ext bytes ?_
  have fields : Fragment.fields s.size [filled] = [s.size + 1] := by
    rw [Fragment.fields_cons, if_pos jumps]
    rfl
  rw [extend, fields]
  cases home with
  | none => exact congrArg (s.relocations ++ [·]) (s.size_append [op.byte])
  | some => exact (List.append_nil _).symm

/-- A jump whose target is left open has zero there for the time being. -/
theorem placeholder_eq (written : filled.write = op.byte :: Bytes.little 4 0)
    (jumps : filled.jump?.isSome) :
    s.placeholder home op = (s.size + 1, s.extend home [filled]) := by
  refine Prod.ext (s.size_append [op.byte]) ?_
  rw [← goTo_eq written jumps]
  rfl

theorem bytes_extend_cons (spelled : filled.write = op.byte :: Bytes.little 4 target) :
    (s.extend home (filled :: code)).bytes =
      (s.bytes.toList ++ [op.byte] ++ Bytes.little 4 target ++ code.bytes).toArray := by
  have written :
      Fragment.bytes (filled :: code) = op.byte :: Bytes.little 4 target ++ code.bytes := by
    rw [Fragment.bytes, List.flatMap_cons, spelled]
    rfl
  apply Array.ext'
  simp [extend, append, written]

/-- When the code has come to the target of a jump, filling it in makes the jump that leads
there. -/
theorem patchHere_eq (op : Opcode) {hole : Nat} (place : hole = s.size + 1)
    (was : unset.write = op.byte :: Bytes.little 4 old) (opened : unset.jump?.isSome)
    (comes : target = s.here home + Fragment.size (unset :: code))
    (written : filled.write = op.byte :: Bytes.little 4 target) (jumps : filled.jump?.isSome) :
    (s.extend home (unset :: code)).patchHere home hole = s.extend home (filled :: code) := by
  refine Segment.ext ?_ ?_
  · have low : (((s.extend home (unset :: code)).here home : Int) % 0x100000000).toNat =
        target % 0x100000000 := by
      rw [here_extend, ← comes]
      omega
    have address :
        Bytes.little 4 (((s.extend home (unset :: code)).here home : Int) % 0x100000000).toNat =
          Bytes.little 4 target := by
      rw [low]
      exact Bytes.little_mod 4 target
    have bytes : ((s.extend home (unset :: code)).patchHere home hole).bytes =
        overwrite (s.extend home (unset :: code)).bytes hole (Bytes.little 4 target) := by
      rw [patchHere, patch, address]
    have length : hole = (s.bytes.toList ++ [op.byte]).length := by
      rw [List.length_append, place]
      rfl
    have same : (Bytes.little 4 old).length = (Bytes.little 4 target).length := by simp
    rw [bytes, length, bytes_extend_cons was, bytes_extend_cons written]
    exact overwrite_between _ _ _ same
  · have sizes : unset.size = filled.size := by
      rw [Instruction.size, was, Instruction.size, written]
      simp
    have fields :
        Fragment.fields s.size (unset :: code) = Fragment.fields s.size (filled :: code) := by
      simp only [Fragment.fields_cons, opened, jumps, sizes]
    rw [patchHere, patch, extend, extend, fields]

end Jumps

theorem goTo_jump {target : Nat} : s.goTo home .jump target = s.extend home [.jump target] :=
  goTo_eq rfl rfl

theorem goTo_jumpIf {target : Nat} : s.goTo home .jumpIf target = s.extend home [.jumpIf target] :=
  goTo_eq rfl rfl

theorem placeholder_jump : s.placeholder home .jump = (s.size + 1, s.extend home [.jump 0]) :=
  placeholder_eq rfl rfl

theorem placeholder_jumpIf : s.placeholder home .jumpIf = (s.size + 1, s.extend home [.jumpIf 0]) :=
  placeholder_eq rfl rfl

theorem patchHere_jump {hole : Nat} (place : hole = s.size + 1) :
    (s.extend home (.jump 0 :: code)).patchHere home hole =
      s.extend home (.jump (s.here home + (Fragment.jumpSize + code.size)) :: code) :=
  patchHere_eq .jump place rfl rfl rfl rfl rfl

theorem patchHere_jumpIf {hole : Nat} (place : hole = s.size + 1) :
    (s.extend home (.jumpIf 0 :: code)).patchHere home hole =
      s.extend home (.jumpIf (s.here home + (Fragment.jumpSize + code.size)) :: code) :=
  patchHere_eq .jumpIf place rfl rfl rfl rfl rfl

@[simp] theorem here_patchHere {hole : Nat} : (s.patchHere home hole).here home = s.here home := by
  rw [here, patchHere, size_patch, here]

/-- Two jumps with open targets: the first leads behind the second, and the second behind what
follows it. -/
theorem patchHere_twice (between behind : Nat) {more : Fragment}
    (leads : between = s.here home + (Fragment.jumpSize + code.size + Fragment.jumpSize))
    (ends : behind = between + more.size) :
    ((((s.extend home (.jumpIf 0 :: code)).extend home [.jump 0]).patchHere home
      (s.size + 1)).extend home
        more).patchHere home ((s.extend home (.jumpIf 0 :: code)).size + 1) =
      s.extend home (.jumpIf between :: (code ++ .jump behind :: more)) := by
  subst ends leads
  rw [extend_cons, patchHere_jumpIf rfl, ← extend_cons, extend_single, patchHere_jump (by simp)]
  simp [Nat.add_assoc]

/-- Append instructions that do not move with the segment. -/
def instructAll (s : Segment) (code : Fragment) : Segment := code.foldl instruct s

theorem instructAll_eq (home : Option Nat)
    (plain : ∀ i ∈ code, i.jump? = none ∧ i.check = .ok ()) :
    s.instructAll code = s.extend home code := by
  induction code generalizing s with
  | nil => exact extend_nil.symm
  | cons i rest ih =>
    obtain ⟨straight, passes⟩ := plain i List.mem_cons_self
    have later :=
      ih (s := s.extend home [i]) fun j member => plain j (List.mem_cons_of_mem i member)
    rw [instructAll, List.foldl_cons, instruct_eq home straight passes]
    exact later.trans extend_extend

end Segment

/-- Something that appends to segments. -/
abbrev Emitter := Segment → Segment

namespace Emitter

/-- The instructions in front of the rounds of a counted loop. -/
abbrev preparing (threshold counter : UInt8) : Fragment :=
  [.store threshold, .push (.number .zero), .store counter]

section Shapes

variable (home : Option Nat) (condition body otherwise : Emitter)

/-- Append a condition, and leave open where to go if it is false. -/
def guarded (s : Segment) : Nat × Segment :=
  ((condition s).instruct .invert).placeholder home .jumpIf

/-- The right side of a short circuit is skipped when the left side decides. -/
def shortCircuit (op : Logic) (left right : Emitter) : Emitter := fun s =>
  let head := if op = .and then (left s).instruct .invert else left s
  let decided := head.placeholder home .jumpIf
  let finish := (right decided.2).placeholder home .jump
  let decision := (finish.2.patchHere home decided.1).instruct (.push (.boolean (op = .or)))
  decision.patchHere home finish.1

def conditional : Emitter := fun s =>
  let skip := guarded home condition s
  (body skip.2).patchHere home skip.1

def alternative : Emitter := fun s =>
  let skip := guarded home condition s
  let finish := (body skip.2).placeholder home .jump
  (otherwise (finish.2.patchHere home skip.1)).patchHere home finish.1

def whileLoop : Emitter := fun s =>
  let exit := guarded home condition s
  ((body exit.2).goTo home .jump (s.here home)).patchHere home exit.1

/-- The rounds of a counted loop. -/
def rounds (threshold counter : UInt8) (body : Emitter) : Emitter := fun s =>
  let prepared := s.instructAll (preparing threshold counter)
  let advanced := (body prepared).instructAll (Fragment.advance threshold counter)
  advanced.goTo home .jumpIf (prepared.here home)

def countedLoop (count : Emitter) (threshold counter : UInt8) (body : Emitter) : Emitter := fun s =>
  let tested := (count s).instructAll [.dup, .push (.number .zero), .order .lessEq]
  let skip := tested.placeholder home .jumpIf
  let finish := (rounds home threshold counter body skip.2).placeholder home .jump
  ((finish.2.patchHere home skip.1).instruct .pop).patchHere home finish.1

end Shapes

/-- What the emitter appends is the code, with targets that count from where the segment starts. -/
def Lays (home : Option Nat) (emitter : Emitter) (code : Fragment) : Prop :=
  ∀ s : Segment, emitter s = s.extend home (code.shift (s.here home))

variable {home : Option Nat} {f g h : Emitter} {first second third : Fragment} {s : Segment}

theorem Lays.inverted (condition : Lays home f first) :
    (f s).instruct .invert = s.extend home (first.shift (s.here home) ++ [.invert]) := by
  rw [condition, Segment.instruct_eq home rfl rfl, Segment.extend_extend]

theorem Lays.conditional (condition : Lays home f first) (body : Lays home g second) :
    Lays home (conditional home f g) (Fragment.conditional first second) := by
  intro s
  simp only [Emitter.conditional, guarded, condition.inverted, Segment.placeholder_jumpIf]
  rw [body, Segment.extend_single, Segment.patchHere_jumpIf rfl]
  simp [Fragment.conditional, Fragment.unlessGoTo, Fragment.guardSize, Instruction.shift,
    Nat.add_assoc, Nat.add_comm, Nat.add_left_comm]

theorem Lays.whileLoop (condition : Lays home f first) (body : Lays home g second) :
    Lays home (whileLoop home f g) (Fragment.whileLoop first second) := by
  intro s
  simp only [Emitter.whileLoop, guarded, condition.inverted, Segment.placeholder_jumpIf]
  rw [body, Segment.extend_single, Segment.goTo_jump,
    Segment.extend_cons, Segment.patchHere_jumpIf rfl]
  simp [Fragment.whileLoop, Fragment.unlessGoTo, Fragment.guardSize, Instruction.shift,
    Nat.add_assoc, Nat.add_comm, Nat.add_left_comm]

theorem Lays.alternative (condition : Lays home f first) (body : Lays home g second)
    (otherwise : Lays home h third) :
    Lays home (alternative home f g h) (Fragment.alternative first second third) := by
  intro s
  simp only [Emitter.alternative, guarded, condition.inverted, Segment.placeholder_jumpIf,
    Segment.placeholder_jump]
  rw [body, Segment.extend_single, otherwise,
    Segment.patchHere_twice _ _ rfl rfl]
  simp [Fragment.alternative, Fragment.unlessGoTo, Fragment.guardSize, Instruction.shift,
    Nat.add_assoc, Nat.add_comm, Nat.add_left_comm]

theorem Lays.shortCircuit (op : Logic) (left : Lays home f first) (right : Lays home g second) :
    Lays home (shortCircuit home op f g) (Fragment.shortCircuit op first second) := by
  intro s
  have head : (if op = .and then (f s).instruct .invert else f s) =
      s.extend home ((Fragment.deciding op first).shift (s.here home)) := by
    cases op with
    | and =>
      rw [if_pos rfl, left.inverted]
      simp [Fragment.deciding, Instruction.shift]
    | or =>
      rw [if_neg (by simp)]
      exact left s
  simp only [Emitter.shortCircuit, head, Segment.placeholder_jumpIf, Segment.placeholder_jump]
  rw [right, Segment.extend_single,
    Segment.instruct_eq home rfl rfl, Segment.patchHere_twice _ _ rfl rfl, Fragment.shortCircuit_eq]
  simp [Fragment.rightStart, Instruction.shift, Nat.add_assoc, Nat.add_comm, Nat.add_left_comm]

theorem Lays.rounds (threshold counter : UInt8) (body : Lays home g second) (start : Nat)
    (begins : start = s.here home + Fragment.size (preparing threshold counter)) :
    rounds home threshold counter g s = s.extend home (preparing threshold counter ++
      second.shift start ++ Fragment.advance threshold counter ++ [.jumpIf start]) := by
  have prepares (s : Segment) : s.instructAll (preparing threshold counter) = s.extend home _ :=
    Segment.instructAll_eq home (by simp [Instruction.jump?, Instruction.check, Value.check])
  have advances (s : Segment) :
      s.instructAll (Fragment.advance threshold counter) = s.extend home _ :=
    Segment.instructAll_eq home
      (by simp [Fragment.advance, Instruction.jump?, Instruction.check, Value.check])
  simp only [Emitter.rounds, prepares, advances, Segment.goTo_jumpIf]
  rw [body, Segment.here_extend, ← begins]
  simp only [Segment.extend_extend]

theorem Lays.countedLoop (threshold counter : UInt8) (count : Lays home f first)
    (body : Lays home g second) : Lays home (countedLoop home f threshold counter g)
      (Fragment.countedLoop first threshold counter second) := by
  intro s
  have tests (s : Segment) :
      s.instructAll [.dup, .push (.number .zero), .order .lessEq] = s.extend home _ :=
    Segment.instructAll_eq home (by simp [Instruction.jump?, Instruction.check, Value.check])
  obtain ⟨top, begins⟩ : ∃ top, top = Fragment.roundStart first threshold counter := ⟨_, rfl⟩
  obtain ⟨skip, leads⟩ : ∃ skip, skip = top + second.size +
      Fragment.size (Fragment.advance threshold counter) + Fragment.jumpSize + Fragment.jumpSize :=
    ⟨_, rfl⟩
  have shape : Fragment.countedLoop first threshold counter second =
      Fragment.counted first ++ [.jumpIf skip] ++ preparing threshold counter ++
        second.shift top ++ Fragment.advance threshold counter ++
        [.jumpIf top, .jump (skip + Fragment.size [.pop])] ++ [.pop] := by
    rw [leads, begins]
    rfl
  simp only [Emitter.countedLoop, tests, Segment.placeholder_jumpIf, Segment.placeholder_jump]
  rw [shape, count, body.rounds threshold counter (top + s.here home),
    Segment.extend_single, Segment.instruct_eq home rfl rfl,
    Segment.patchHere_twice (skip + s.here home) (skip + Fragment.size [.pop] + s.here home)]
  · simp [Fragment.counted, Fragment.advance, Instruction.shift]
  · simp only [leads, begins, Fragment.roundStart, Fragment.counted, Segment.here_extend,
      Fragment.size_append, Fragment.size_shift, Fragment.size_cons, Fragment.size_nil,
      Instruction.size_jumpIf]
    omega
  · omega
  · simp only [begins, Fragment.roundStart, Fragment.counted, Segment.here_extend,
      Fragment.size_append, Fragment.size_shift, Fragment.size_cons, Fragment.size_nil,
      Instruction.size_jumpIf]
    omega

theorem Lays.andThen (left : Lays home f first) (right : Lays home g second) :
    Lays home (fun s => g (f s)) (first ++ second.shift first.size) := by
  intro s
  show g (f s) = _
  rw [left, right]
  simp [Nat.add_comm]

end Emitter

/-- How code is emitted, piece by piece: instructions that have an encoded form and are no jumps,
and the shapes of control flow around other pieces. -/
inductive Emission where
  | nothing
  | single (i : Instruction) (straight : i.jump? = none) (passes : i.check = .ok ())
  | andThen (first second : Emission)
  | shortCircuit (op : Logic) (left right : Emission)
  | conditional (condition body : Emission)
  | alternative (condition body otherwise : Emission)
  | whileLoop (condition body : Emission)
  | countedLoop (count : Emission) (threshold counter : UInt8) (body : Emission)

namespace Emission

/-- The fragment that is emitted. -/
def code : Emission → Fragment
  | nothing => []
  | single i .. => [i]
  | andThen first second => first.code ++ second.code.shift first.code.size
  | shortCircuit op left right => Fragment.shortCircuit op left.code right.code
  | conditional condition body => Fragment.conditional condition.code body.code
  | alternative condition body otherwise =>
    Fragment.alternative condition.code body.code otherwise.code
  | whileLoop condition body => Fragment.whileLoop condition.code body.code
  | countedLoop count threshold counter body =>
    Fragment.countedLoop count.code threshold counter body.code

/-- Emit the code into a segment, which starts at an address or is placed later. -/
def emit (home : Option Nat) : Emission → Emitter
  | nothing => id
  | single i .. => (·.instruct i)
  | andThen first second => fun s => second.emit home (first.emit home s)
  | shortCircuit op left right => Emitter.shortCircuit home op (left.emit home) (right.emit home)
  | conditional condition body => Emitter.conditional home (condition.emit home) (body.emit home)
  | alternative condition body otherwise =>
    Emitter.alternative home (condition.emit home) (body.emit home) (otherwise.emit home)
  | whileLoop condition body => Emitter.whileLoop home (condition.emit home) (body.emit home)
  | countedLoop count threshold counter body =>
    Emitter.countedLoop home (count.emit home) threshold counter (body.emit home)

/-- What is emitted with open targets that are filled in later is the finished fragment. -/
theorem lays (home : Option Nat) (e : Emission) : Emitter.Lays home (e.emit home) e.code := by
  induction e with
  | nothing => exact fun s => Segment.extend_nil.symm
  | single i straight passes =>
    intro s
    rw [code, Fragment.shift_cons, Instruction.shift_of_straight straight]
    exact Segment.instruct_eq home straight passes
  | andThen _ _ first second => exact first.andThen second
  | shortCircuit op _ _ left right => exact left.shortCircuit op right
  | conditional _ _ condition body => exact condition.conditional body
  | alternative _ _ _ condition body otherwise => exact condition.alternative body otherwise
  | whileLoop _ _ condition body => exact condition.whileLoop body
  | countedLoop _ threshold counter _ count body => exact count.countedLoop threshold counter body

end Emission

namespace Fragment

/-- The code can be emitted without knowing where its jumps lead. -/
def Emittable (code : Fragment) : Prop := ∃ e : Emission, e.code = code

namespace Emittable

variable {first second third : Fragment}

theorem nil : Emittable [] := ⟨.nothing, rfl⟩

theorem single {i : Instruction} (straight : i.jump? = none) (passes : i.check = .ok ()) :
    Emittable [i] :=
  ⟨.single i straight passes, rfl⟩

theorem append (left : Emittable first) (right : Emittable second) :
    Emittable (first ++ second.shift first.size) := by
  obtain ⟨one, rfl⟩ := left
  obtain ⟨two, rfl⟩ := right
  exact ⟨.andThen one two, rfl⟩

theorem before {more : List Fragment} (left : Emittable first) (right : Emittable (sequence more)) :
    Emittable (sequence (first :: more)) := by
  rw [sequence_cons]
  exact left.append right

theorem last (only : Emittable first) : Emittable (sequence [first]) := only.before nil

theorem followed {i : Instruction} (left : Emittable first) (straight : i.jump? = none)
    (passes : i.check = .ok ()) : Emittable (first ++ [i]) := by
  have both := left.append (single straight passes)
  rwa [shift_cons, Instruction.shift_of_straight straight] at both

theorem append_plain (left : Emittable first)
    (plain : ∀ i ∈ second, i.jump? = none ∧ i.check = .ok ()) : Emittable (first ++ second) := by
  induction second generalizing first with
  | nil => rwa [List.append_nil]
  | cons i rest ih =>
    obtain ⟨straight, passes⟩ := plain i List.mem_cons_self
    have later := ih (left.followed straight passes) fun j member =>
      plain j (List.mem_cons_of_mem i member)
    rwa [List.append_assoc] at later

theorem shortCircuit (op : Logic) (left : Emittable first) (right : Emittable second) :
    Emittable (shortCircuit op first second) := by
  obtain ⟨one, rfl⟩ := left
  obtain ⟨two, rfl⟩ := right
  exact ⟨.shortCircuit op one two, rfl⟩

theorem conditional (condition : Emittable first) (body : Emittable second) :
    Emittable (conditional first second) := by
  obtain ⟨one, rfl⟩ := condition
  obtain ⟨two, rfl⟩ := body
  exact ⟨.conditional one two, rfl⟩

theorem alternative (condition : Emittable first) (body : Emittable second)
    (otherwise : Emittable third) : Emittable (alternative first second third) := by
  obtain ⟨one, rfl⟩ := condition
  obtain ⟨two, rfl⟩ := body
  obtain ⟨three, rfl⟩ := otherwise
  exact ⟨.alternative one two three, rfl⟩

theorem whileLoop (condition : Emittable first) (body : Emittable second) :
    Emittable (whileLoop first second) := by
  obtain ⟨one, rfl⟩ := condition
  obtain ⟨two, rfl⟩ := body
  exact ⟨.whileLoop one two, rfl⟩

theorem countedLoop (threshold counter : UInt8) (count : Emittable first)
    (body : Emittable second) : Emittable (countedLoop first threshold counter second) := by
  obtain ⟨one, rfl⟩ := count
  obtain ⟨two, rfl⟩ := body
  exact ⟨.countedLoop one threshold counter two, rfl⟩

end Emittable

end Fragment

open Compile

theorem Compiler.frees_plain (c : Compiler) : ∀ i ∈ c.frees, i.jump? = none ∧ i.check = .ok () := by
  intro i member
  obtain ⟨slot, -, rfl⟩ := List.mem_map.mp member
  exact ⟨rfl, rfl⟩

/-- All code that is made can be emitted piece by piece. -/
theorem Yields.emittable {task : Task} {c c' : Compiler} {x : Compiled}
    (derivation : Yields task c x c') : x.code.Emittable := by
  induction derivation with
  | literal passes | literals _ passes | initialDefault _ passes => exact .single rfl passes
  | @unary op _ _ _ _ _ _ operand =>
    exact operand.followed (by cases op <;> rfl) (by cases op <;> rfl)
  | arith _ _ first second | order _ _ first second =>
    exact first.before (second.before (.last (.single rfl rfl)))
  | logic _ _ first second => exact first.shortCircuit _ second
  | comparison compares _ _ _ _ _ first second =>
    obtain ⟨straight, passes, -⟩ := BinaryOp.comparison_fits compares fun _ => True
    exact (first.before second.last).followed straight passes
  | result => exact .single rfl rfl
  | var found =>
    rcases reference_ok found with ⟨_, _, _, code, _⟩ | ⟨_, _, _, rfl, _⟩
    · rw [code]
      exact .single rfl rfl
    · exact .single rfl rfl
  | declare _ _ _ _ value | assignParam _ _ _ _ value | assignVariable _ _ _ value
  | convert _ _ _ _ value | giveBack _ _ _ _ value | list _ _ _ value =>
    exact value.followed rfl rfl
  | branch _ _ condition body => exact condition.conditional body
  | loop _ _ condition body => exact condition.whileLoop body
  | alternative _ _ _ condition body otherwise => exact condition.alternative body otherwise
  | times _ _ _ _ count body =>
    exact (count.countedLoop _ _ body).append_plain (Compiler.frees_plain _)
  | call _ _ _ finished given =>
    obtain ⟨code, passes, -⟩ := finishCall_ok finished
    rw [code]
    exact given.followed (Callee.instruction_straight _) passes
  | define | giveNothing | noArguments | noItems | noStatements => exact .nil
  | item _ _ _ items place => exact items.before (place.before (.last (.single rfl rfl)))
  | @setItem _ _ _ _ _ _ _ slot _ _ _ _ _ _ _ _ items place new =>
    have set : Fragment.Emittable [.setItem] := .single rfl rfl
    have stored : Fragment.Emittable [.setItem, .store slot] := set.followed rfl rfl
    exact items.before (place.before (new.before stored.last))
  | operand _ _ inner | valueOf _ _ _ inner | valueFound _ _ _ inner | giveFound _ _ _ _ inner
  | initialValue _ inner | giveDeclared _ _ inner => exact inner
  | moreArguments _ _ _ _ _ first rest | moreItems _ _ first rest => exact first.append rest
  | moreStatements _ finished _ first rest =>
    rcases finishStatement_code finished with rfl | ⟨slot, rfl⟩
    · exact first.append rest
    · exact (first.followed rfl rfl).append rest
  | block _ inner => exact inner.append_plain (Compiler.frees_plain _)

/-- The code of a procedure can be emitted piece by piece. -/
theorem Making.emittable (m : Making) : m.code.Emittable := by
  have plain : ∀ i ∈ (m.draft.finish.params.map (·.slot)).reverse.map Instruction.store,
      i.jump? = none ∧ i.check = .ok () := by
    intro i member
    obtain ⟨slot, -, rfl⟩ := List.mem_map.mp member
    exact ⟨rfl, rfl⟩
  have stores := Fragment.Emittable.nil.append_plain plain
  have last : Fragment.Emittable (if Node.blockReturns m.body then [] else [.ret]) := by
    split
    · exact .nil
    · exact .single rfl rfl
  rw [Making.code, procedureCode_eq]
  exact stores.before (m.compiles.emittable.before last.last)

namespace Segment

/-- The code of procedures, emitted one after another to where the library starts. -/
def prologue (procedures : List Emission) : Segment :=
  procedures.foldl (fun s e => e.emit (some Compiler.libraryStart) s) {}

/-- A unit made of two segments: the jump to the top-level code, the procedures and the top-level
code. -/
def assembled (procedures top : Segment) : Array UInt8 :=
  top.placeAfter (procedures.placeAfter
    (Opcode.jump.byte :: Bytes.little 4 (Compiler.libraryStart + procedures.size)).toArray)

/-- Code that knows its place is placed as it is. -/
theorem placeAfter_home {base : Nat} {code : Fragment} (out : Array UInt8) :
    (extend {} (some base) code).placeAfter out = out ++ code.bytes.toArray := by
  simp [placeAfter, extend, append]

/-- Code that does not know its place is placed by moving the targets of its jumps. -/
theorem placeAfter_extend {code : Fragment} (out : Array UInt8) :
    (extend {} none code).placeAfter out = out ++ (code.shift out.size).bytes.toArray := by
  have fields :
      (Fragment.fields 0 code).map (out.size + ·) = Fragment.fields out.toList.length code := by
    rw [← Fragment.fields_add]
    rfl
  have moved := Fragment.bytes_shift_between out.size out.toList [] code
  have bytes (more : List UInt8) : (out.toList ++ more ++ []).toArray = out ++ more.toArray := by
    simp
  rw [← fields, bytes, bytes] at moved
  rw [← moved, placeAfter]
  simp [extend, append, size]

end Segment

/-- Procedures on the shelf, with how they were made, and how their code is emitted. -/
theorem Shelf.emitted {allowed : Node → Prop} {hosts : List (String × Signature)}
    {procedures : List Procedure} {library : Fragment}
    (shelf : Shelf allowed hosts procedures library) :
    ∃ (makings : List Making) (emissions : List Emission),
      procedures = makings.map (·.draft.finish) ∧ emissions.map (·.code) = makings.map (·.code) ∧
        Segment.prologue emissions = Segment.extend {} (some Compiler.libraryStart) library := by
  induction shelf with
  | empty => exact ⟨[], [], rfl, rfl, rfl⟩
  | add before m kind table earlier shelved ih =>
    obtain ⟨makings, emissions, finished, codes, laid⟩ := ih
    obtain ⟨e, code⟩ := m.emittable
    refine ⟨makings ++ [m], emissions ++ [e], ?_, ?_, ?_⟩
    · rw [List.map_append, finished, List.map_singleton]
    · rw [List.map_append, List.map_append, codes, List.map_singleton, List.map_singleton, code]
    have address : m.draft.finish.address = Segment.here (Segment.prologue emissions)
        (some Compiler.libraryStart) := by
      rw [laid, Segment.here_extend, ← shelved]
      exact m.address
    have next : Segment.prologue (emissions ++ [e]) =
        e.emit (some Compiler.libraryStart) (Segment.prologue emissions) :=
      List.foldl_append
    rw [next, e.lays, code, ← address, laid, Segment.extend_extend]

namespace Compiler

/-- The code of a unit is put together from the segments of the library and of the top-level
code. -/
theorem assemble_eq_assembled (c : Compiler) (top : Fragment) : (c.assemble top).bytes =
    (Segment.extend {} (some libraryStart) c.library).assembled (Segment.extend {} none top) := by
  have entry : Opcode.jump.byte :: Bytes.little 4 (libraryStart +
      (Segment.extend {} (some libraryStart) c.library).size) =
        Fragment.bytes [.jump c.libraryEnd] := by
    rw [Segment.size_extend, show Segment.size {} = 0 from rfl, Nat.zero_add, Fragment.bytes,
      List.flatMap_singleton]
    rfl
  have front : (Fragment.bytes [.jump c.libraryEnd]).toArray ++ c.library.bytes.toArray =
      (Fragment.bytes ([.jump c.libraryEnd] ++ c.library)).toArray := by
    rw [Fragment.bytes_append, List.append_toArray]
  rw [Segment.assembled, entry, Segment.placeAfter_home, front, Segment.placeAfter_extend,
    List.size_toArray, c.length_library, List.append_toArray, ← Fragment.bytes_append]
  rfl

/-- Whatever units a compiler was given before, the code of one that compiles is put together from
two segments: one that the procedures were emitted to, one after another and with their final
addresses, and one with the top-level code, whose addresses move when it is placed behind. Jumps to
code that comes later were emitted with open targets that were filled in. -/
theorem compile_emitted (hosts : List (String × Signature)) (programs : List Program)
    (program : Program) {code : Bytecode} {after : Compiler}
    (done : ((new hosts).after programs).compile program = .ok (code, after)) :
    ∃ (makings : List Making) (procedures : List Emission) (top : Emission),
      after.procedures = makings.map (·.draft.finish) ∧
        procedures.map (·.code) = makings.map (·.code) ∧
        Yields (.statements program) ((new hosts).after programs) ⟨none, top.code⟩ after ∧
        code.bytes = (Segment.prologue procedures).assembled
          ((top.emit none {}).instruct .ret) := by
  obtain ⟨top, derivation, rfl⟩ := compile_ok done
  obtain ⟨e, rfl⟩ := derivation.emittable
  obtain ⟨makings, procedures, finished, codes, laid⟩ :=
    ((Reached.after .new programs).compile done).shelf.2.emitted
  refine ⟨makings, procedures, e, finished, codes, derivation, ?_⟩
  have start : Segment.here {} none = 0 := rfl
  rw [assemble_eq_assembled, laid, e.lays, start, Fragment.shift_zero,
    Segment.instruct_eq none rfl rfl, Segment.extend_extend]

end Compiler

end Primer
