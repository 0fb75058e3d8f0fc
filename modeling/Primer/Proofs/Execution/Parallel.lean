import Primer.Proofs.Compilation.Emission
import Primer.Proofs.Execution.Agreement
import Primer.Proofs.Execution.Verified

/-!
Two machines side by side. They are alike when they differ only in where their code stands and in
slots about which nothing is known. As long as both are at the same instruction and it reads no
unknown slot, they take the same turn, and remain alike; what the instruction writes is known from
then on.
-/

set_option autoImplicit false
set_option relaxedAutoImplicit false

namespace Primer

namespace Instruction

/-- The instruction with the addresses that it names moved. -/
def retarget (f : Nat → Nat) : Instruction → Instruction
  | jump target => .jump (f target)
  | jumpIf target => .jumpIf (f target)
  | call target => .call (f target)
  | i => i

/-- The instruction may lead to the address. -/
def LeadsTo (i : Instruction) (target : Nat) : Prop := i.jump? = some target ∨ i = .call target

theorem retarget_id (i : Instruction) : i.retarget id = i := by
  cases i <;> rfl

end Instruction

/-- The error with the addresses that it names moved. -/
def MachineError.moved (f : Nat → Nat) : MachineError → MachineError
  | .fatal fault offset => .fatal fault (f offset)
  | .runtime mishap calls => .runtime mishap (calls.map f)

theorem MachineError.moved_id (error : MachineError) : error.moved id = error := by
  cases error <;> simp [moved]

namespace Machine

/-- The second machine differs from the first in its code, where each address stands for another,
and in slots that are not known. -/
structure Alike (f : Nat → Nat) (known : Set UInt8) (m m' : Machine) : Prop where
  config : m'.config = m.config
  stack : m'.stack = m.stack
  calls : m'.calls = m.calls.map f
  locals : ∀ slot ∈ known, m'.locals.get? slot = m.locals.get? slot
  steps : m.config.maxSteps = none ∨ m'.steps = m.steps

variable {f : Nat → Nat} {known : Set UInt8} {m m' : Machine}

theorem Alike.mono {fewer : Set UInt8} (alike : Alike f known m m') (less : fewer ⊆ known) :
    Alike f fewer m m' :=
  { alike with locals := fun slot member => alike.locals slot (less member) }

theorem Alike.restack (alike : Alike f known m m') (stack : List Value) :
    Alike f known { m with stack } { m' with stack } :=
  { alike with stack := rfl }

theorem Alike.push (alike : Alike f known m m') (value : Value) :
    Alike f known (m.push value) (m'.push value) := by
  have same := alike.restack (value :: m.stack)
  unfold Machine.push
  rw [alike.stack]
  exact same

/-- Where the machines go on does not matter. -/
theorem Alike.go (alike : Alike f known m m') (target target' : Nat) :
    Alike f known { m with ip := target } { m' with ip := target' } :=
  { alike with }

theorem Alike.abandon (alike : Alike f known m m') : Alike f known m.abandon m'.abandon :=
  { alike with stack := rfl, calls := rfl }

/-- The effects of an instruction on two machines: the same trouble, the same request, and machines
that are alike. Those that go on point to addresses that stand for each other. -/
inductive Parallel (f : Nat → Nat) (known : Set UInt8) :
    Except Trouble Effect → Except Trouble Effect → Prop
  | next {m m' : Machine} (alike : Alike f known m m') (ip : m'.ip = f m.ip) :
      Parallel f known (.ok (.next m)) (.ok (.next m'))
  | halt {m m' : Machine} (alike : Alike f known m m') :
      Parallel f known (.ok (.halt m)) (.ok (.halt m'))
  | request {m m' : Machine} {call : HostCall} (alike : Alike f known m m') (ip : m'.ip = f m.ip) :
      Parallel f known (.ok (.request call m)) (.ok (.request call m'))
  | error (trouble : Trouble) : Parallel f known (.error trouble) (.error trouble)

/-- What is worked out from the stack is the same for both. -/
theorem Parallel.bind {α : Type} (first : Except Trouble α) {next next' : α → Except Trouble Effect}
    (rest : ∀ a, Parallel f known (next a) (next' a)) :
    Parallel f known (first >>= next) (first >>= next') := by
  cases first with
  | ok a => exact rest a
  | error trouble => exact .error trouble

variable {i : Instruction}

/-- An instruction that writes no slot makes none known. -/
theorem Alike.unchanged (alike : Alike f known m m') (spares : i.changes? = none) :
    Alike f (known ∪ i.sets) m m' := by
  refine alike.mono ?_
  rintro slot (member | changed)
  · exact member
  · cases spares.symm.trans changed

/-- What is written to a slot is known. -/
theorem Alike.write (alike : Alike f known m m') {slot : UInt8} (changed : i.changes? = some slot)
    {locals locals' : Locals} (here : locals'.get? slot = locals.get? slot)
    (elsewhere : ∀ other, other ≠ slot →
      locals.get? other = m.locals.get? other ∧ locals'.get? other = m'.locals.get? other) :
    Alike f (known ∪ i.sets) { m with locals } { m' with locals := locals' } := by
  refine { alike with locals := fun other member => ?_ }
  by_cases same : other = slot
  · rw [same]
    exact here
  · obtain ⟨first, second⟩ := elsewhere other same
    rcases member with member | written
    · exact second.trans ((alike.locals other member).trans first.symm)
    · exact absurd (Option.some.inj (changed.symm.trans written)).symm same

theorem jump_inside {target : Nat} (inside : target ≤ m.code.size) :
    m.jump target = .ok { m with ip := target } :=
  if_pos inside

/-- Machines that are alike carry out an instruction alike, if it reads no unknown slot and leads to
addresses inside the code. They point behind the instruction, which matters if control goes on
there. -/
theorem Alike.execute (hosts : String → Option Signature) (alike : Alike f known m m')
    (behind : i.goesOn → m'.ip = f m.ip) (loads : ∀ slot, i = .load slot → slot ∈ known)
    (fits : ∀ target ≤ m.code.size, f target ≤ m'.code.size)
    (leads : ∀ target, i.LeadsTo target → target ≤ m.code.size)
    (back : ∀ target ∈ m.calls, target ≤ m.code.size) :
    Parallel f (known ∪ i.sets) (m.execute hosts i) (m'.execute hosts (i.retarget f)) := by
  cases i with
  | jump target =>
    have inside := leads target (.inl rfl)
    simp only [Instruction.retarget, Machine.execute, jump_inside inside,
      jump_inside (fits target inside)]
    exact .next ((alike.unchanged rfl).go target (f target)) rfl
  | jumpIf target =>
    have inside := leads target (.inl rfl)
    have same := alike.unchanged (i := .jumpIf target) rfl
    simp only [Instruction.retarget, Machine.execute, alike.stack]
    refine .bind _ fun ⟨taken, stack⟩ => ?_
    cases taken with
    | true =>
      have lands := jump_inside (m := { m with stack }) inside
      have lands' := jump_inside (m := { m' with stack }) (fits target inside)
      simp only [if_true, lands, lands']
      exact .next ((same.restack stack).go target (f target)) rfl
    | false => exact .next (same.restack stack) (behind rfl)
  | push value => exact .next ((alike.unchanged rfl).push value) (behind rfl)
  | dup =>
    simp only [Instruction.retarget, Machine.execute, alike.stack]
    exact .bind _ fun ⟨top, _⟩ => .next ((alike.unchanged rfl).push top) (behind rfl)
  | pop | equal | notEqual | invert | negate | makeList count =>
    simp only [Instruction.retarget, Machine.execute, alike.stack]
    exact .bind _ fun _ => .next ((alike.unchanged rfl).restack _) (behind rfl)
  | arith op | order op =>
    simp only [Instruction.retarget, Machine.execute, alike.stack]
    exact .bind _ fun _ => .bind _ fun _ => .next ((alike.unchanged rfl).restack _) (behind rfl)
  | load slot =>
    simp only [Instruction.retarget, Machine.execute, alike.locals slot (loads slot rfl)]
    cases m.locals.get? slot with
    | some value => exact .next ((alike.unchanged rfl).push value) (behind rfl)
    | none => exact .error _
  | store slot =>
    simp only [Instruction.retarget, Machine.execute, alike.stack]
    refine .bind _ fun ⟨value, stack⟩ => .next ?_ (behind rfl)
    refine (alike.restack stack).write (i := .store slot) rfl (by simp) fun other differs => ?_
    simp [differs]
  | free slot =>
    refine .next (alike.write (i := .free slot) rfl (by simp) fun other differs => ?_) (behind rfl)
    simp [differs]
  | convert target =>
    simp only [Instruction.retarget, Machine.execute, alike.stack]
    refine .bind _ fun ⟨value, stack⟩ => ?_
    dsimp only
    split
    · cases value.convert target with
      | ok converted => exact .next ((alike.unchanged rfl).restack _) (behind rfl)
      | error failure => exact .error _
    · exact .error _
  | call target =>
    have inside := leads target (.inr rfl)
    have depth : m'.calls.length = m.calls.length := by rw [alike.calls, List.length_map]
    have limit : m'.config.maxCallDepth = m.config.maxCallDepth := by rw [alike.config]
    have pushed : m'.ip :: m'.calls = (m.ip :: m.calls).map f := by
      rw [behind rfl, alike.calls, List.map_cons]
    have lands := jump_inside (m := { m with calls := m.ip :: m.calls }) inside
    have lands' := jump_inside (m := { m' with calls := m'.ip :: m'.calls }) (fits target inside)
    simp only [Instruction.retarget, Machine.execute, lands, lands', depth, limit]
    split
    · exact .error _
    · exact .next { alike.unchanged rfl with calls := pushed } rfl
  | ret =>
    simp only [Instruction.retarget, Machine.execute, alike.calls]
    cases active : m.calls with
    | nil => exact .halt (alike.unchanged rfl)
    | cons address calls =>
      have inside := back address (active ▸ List.mem_cons_self)
      simp only [List.map_cons, if_pos inside, if_pos (fits address inside)]
      exact .next { alike.unchanged rfl with calls := rfl } rfl
  | callHost name =>
    simp only [Instruction.retarget, Machine.execute, alike.stack]
    cases hosts name with
    | none => exact .error _
    | some signature =>
      exact .bind _ fun _ => .bind _ fun _ =>
        .request ((alike.unchanged rfl).restack _) (behind rfl)
  | getItem expected =>
    simp only [Instruction.retarget, Machine.execute, alike.stack]
    refine .bind _ fun _ => .bind _ fun _ => .bind _ fun _ => ?_
    split
    · exact .next ((alike.unchanged rfl).restack _) (behind rfl)
    · exact .error _
  | setItem =>
    simp only [Instruction.retarget, Machine.execute, alike.stack]
    exact .bind _ fun _ => .bind _ fun _ => .bind _ fun _ => .bind _ fun _ =>
      .next ((alike.unchanged rfl).restack _) (behind rfl)

theorem Alike.exceeded? (alike : Alike f known m m') : m'.exceeded? = m.exceeded? := by
  unfold Machine.exceeded?
  rw [alike.config, alike.stack]
  rcases alike.steps with unlimited | same
  · rw [unlimited]
  · rw [same]

theorem Alike.count (alike : Alike f known m m') :
    Alike f known { m with steps := m.steps + 1 } { m' with steps := m'.steps + 1 } :=
  { alike with steps := alike.steps.imp_right (congrArg (· + 1)) }

end Machine

variable {σ : Type}

namespace Machine

/-- What two machines come to by a turn. If they go on, more slots are known. -/
inductive Together (f : Nat → Nat) (known more : Set UInt8) :
    (Machine ⊕ Finished) × σ → (Machine ⊕ Finished) × σ → Prop
  | goesOn {m m' : Machine} {w : σ} (alike : Alike f (known ∪ more) m m') (ip : m'.ip = f m.ip) :
      Together f known more (.inl m, w) (.inl m', w)
  | ends {m m' : Machine} {w : σ} (error : Option MachineError) (alike : Alike f known m m') :
      Together f known more (.inr ⟨m, error⟩, w) (.inr ⟨m', error.map (.moved f)⟩, w)

variable {f : Nat → Nat} {known : Set UInt8} {m m' : Machine} {hosts : HostTable (StateM σ)}

theorem Alike.fails (alike : Alike f known m m') {mishap : Mishap} (more : Set UInt8) (w : σ) :
    Together f known more
      (.inr ⟨m.abandon, some (.runtime mishap m.calls.reverse)⟩, w)
      (.inr ⟨m'.abandon, some (.runtime mishap m'.calls.reverse)⟩, w) := by
  have moved : MachineError.runtime mishap m'.calls.reverse =
      MachineError.moved f (.runtime mishap m.calls.reverse) := by
    rw [MachineError.moved, alike.calls, List.map_reverse]
  rw [moved]
  exact .ends (some _) alike.abandon

/-- Machines that are alike take their turn alike, when they are at the same instruction. -/
theorem Alike.turn (alike : Alike f known m m') (ip : m'.ip = f m.ip) {i : Instruction}
    {behind behind' : Nat} (decoded : m.code.decodeAt m.ip = .ok (i, behind))
    (decoded' : m'.code.decodeAt m'.ip = .ok (i.retarget f, behind'))
    (same : i.goesOn → behind' = f behind) (loads : ∀ slot, i = .load slot → slot ∈ known)
    (fits : ∀ target ≤ m.code.size, f target ≤ m'.code.size)
    (leads : ∀ target, i.LeadsTo target → target ≤ m.code.size)
    (back : ∀ target ∈ m.calls, target ≤ m.code.size) (w : σ) :
    Together f known i.sets (m.turn hosts w) (m'.turn hosts w) := by
  have inside : m.ip < m.code.size := by
    have onward := Bytecode.decodeAt_onward decoded
    omega
  have inside' : m'.ip < m'.code.size := by
    have onward := Bytecode.decodeAt_onward decoded'
    omega
  have counted := alike.count
  have before : Alike f known { m with ip := behind, steps := m.steps + 1 }
      { m' with ip := behind', steps := m'.steps + 1 } := counted.go behind behind'
  have after := before.execute hosts.signature? same loads fits leads back
  unfold Machine.turn Machine.step
  simp only [if_pos inside, if_pos inside', counted.exceeded?, decoded, decoded']
  cases exceeds : Machine.exceeded? { m with steps := m.steps + 1 } with
  | some mishap => exact .ends (some (.runtime mishap [])) counted.abandon
  | none =>
    dsimp only
    generalize Machine.execute hosts.signature? { m with ip := behind, steps := m.steps + 1 } i =
      effect at after ⊢
    generalize Machine.execute hosts.signature? { m' with ip := behind', steps := m'.steps + 1 }
      (i.retarget f) = effect' at after ⊢
    cases after with
    | next alike ip => exact .goesOn alike ip
    | halt alike => exact .ends none (alike.mono Set.subset_union_left)
    | error trouble =>
      cases trouble with
      | fault fault =>
        rw [ip]
        exact .ends (some (.fatal fault m.ip)) before.abandon
      | mishap mishap => exact before.fails _ w
    | @request waiting waiting' call alike ip =>
      have same := alike.mono (Set.subset_union_left (s := known))
      dsimp only
      generalize (hosts.call? call.name call.arguments).getD (pure (.ok none)) w = answer
      obtain ⟨reply, w'⟩ := answer
      dsimp only
      unfold Machine.resume
      cases reply with
      | error reason => exact same.fails _ w'
      | ok answer =>
        by_cases silent : call.signature.returns = .void
        · simp only [if_pos silent]
          exact .goesOn alike ip
        · simp only [if_neg silent]
          cases answer with
          | none => exact same.fails _ w'
          | some value =>
            by_cases typed : value.type = call.signature.returns
            · simp only [if_pos typed]
              exact .goesOn (alike.push value) ip
            · simp only [if_neg typed]
              exact same.fails _ w'

end Machine

end Primer
