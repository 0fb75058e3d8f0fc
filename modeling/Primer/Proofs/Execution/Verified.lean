import Primer.Proofs.Execution.Turn
import Primer.Proofs.Regions

/-!
Runs of accepted buffers. A buffer is accepted after one walk from its start to its end, while a run
comes to its instructions by jumps, calls and returns in any order. Still the machine only ever
points to offsets that the walk has found or to the end of the buffer, and so do the return
addresses.
-/

set_option autoImplicit false
set_option relaxedAutoImplicit false

namespace Primer

namespace Bytecode

/-- A reader that takes a number of bytes at least, all of them from the buffer. -/
def Onward {α : Type} (code : Bytecode) (least : Nat) (read : Decoder α) : Prop :=
  ∀ offset a next, read offset = .ok (a, next) →
    offset + least ≤ next ∧ (next = offset ∨ next ≤ code.size)

namespace Onward

variable {α β : Type} {code : Bytecode} {least : Nat}

theorem weaken {read : Decoder α} (onward : code.Onward least read) : code.Onward 0 read := by
  intro offset a next done
  obtain ⟨after, within⟩ := onward offset a next done
  exact ⟨by omega, within⟩

theorem pure (a : α) : code.Onward 0 (Pure.pure a) := by
  intro offset b next done
  cases done
  exact ⟨Nat.le_refl _, .inl rfl⟩

theorem fail (fault : DecodeFault) : code.Onward least (throw fault : Decoder α) := by
  intro offset b next done
  cases done

theorem bind {first : Decoder α} {rest : α → Decoder β} (before : code.Onward least first)
    (after : ∀ a, code.Onward 0 (rest a)) : code.Onward least (first >>= rest) := by
  intro offset b next done
  obtain ⟨⟨a, middle⟩, read, last⟩ := Machine.bind_eq_ok.mp done
  have reached := before offset a middle read
  have passed := after a middle b next last
  omega

/-- Looking where one is takes nothing. -/
theorem look {rest : Nat → Decoder β} (after : ∀ offset, code.Onward least (rest offset)) :
    code.Onward least (get >>= rest) :=
  fun offset => after offset offset

theorem take (width : Nat) : code.Onward width (code.take width) := by
  intro offset bytes next done
  unfold Bytecode.take at done
  split at done
  · cases done
    exact ⟨Nat.le_refl _, .inr (by assumption)⟩
  · cases done

theorem readNat (width : Nat) : code.Onward width (code.readNat width) :=
  bind (take width) fun _ => pure _

theorem readByte : code.Onward 1 code.readByte :=
  bind (readNat 1) fun _ => pure _

theorem readType : code.Onward 1 code.readType := by
  refine look fun offset => bind readByte fun byte => ?_
  cases Ty.ofTag? byte with
  | some type => exact pure type
  | none => exact fail _

theorem readOnto {one : Decoder α} (each : code.Onward 0 one) (count : Nat) (done : List α) :
    code.Onward 0 (Bytecode.readOnto one count done) := by
  induction count generalizing done with
  | zero => exact pure _
  | succ count ih => exact bind each fun _ => ih _

theorem readMany {one : Decoder α} (each : code.Onward 0 one) (count : Nat) :
    code.Onward 0 (Bytecode.readMany one count) :=
  readOnto each count []

theorem readValueWithin (fuel : Nat) : code.Onward 0 (code.readValueWithin fuel) := by
  induction fuel with
  | zero => exact look fun _ => fail _
  | succ fuel ih =>
    refine look fun offset => bind readType.weaken fun type => ?_
    cases type with
    | number => exact bind (readNat 8).weaken fun _ => pure _
    | boolean => exact bind readByte.weaken fun _ => pure _
    | string =>
      refine bind (readNat 2).weaken fun count => ?_
      refine bind (readMany (readNat 2).weaken count) fun units => ?_
      cases Text.ofUnits? (units.map UInt16.ofNat) with
      | some cs => exact pure _
      | none => exact fail _
    | list => exact bind (readNat 2).weaken fun count => bind (readMany ih count) fun _ => pure _
    | void => exact fail _

theorem readValue : code.Onward 0 code.readValue :=
  fun offset => readValueWithin (code.size - offset + 1) offset

theorem readString : code.Onward 0 code.readString := by
  refine look fun offset => bind readValue fun value => ?_
  cases value with
  | string s => exact pure s
  | number | boolean | list | void => exact fail _

theorem readAddress : code.Onward 0 code.readAddress := by
  refine look fun offset => bind (readNat 4).weaken fun address => ?_
  split
  · exact pure address
  · exact fail _

theorem readOpcode : code.Onward 1 code.readOpcode := by
  refine look fun offset => bind readByte fun byte => ?_
  cases Opcode.ofByte? byte with
  | some op => exact pure op
  | none => exact fail _

theorem readOperand (op : Opcode) : code.Onward 0 (code.readOperand op) := by
  cases op with
  | jump | jumpIf | call => exact bind readAddress fun _ => pure _
  | push => exact bind readValue fun _ => pure _
  | load | store | free => exact bind readByte.weaken fun _ => pure _
  | convert | getItem => exact bind readType.weaken fun _ => pure _
  | callHost => exact bind readString fun _ => pure _
  | makeList => exact bind (readNat 2).weaken fun _ => pure _
  | pop | dup | arith | order | equal | notEqual | invert | negate | ret | setItem => exact pure _

end Onward

/-- An instruction takes a byte at least and ends within the buffer. -/
theorem decodeAt_onward {code : Bytecode} {offset next : Nat} {i : Instruction}
    (decoded : code.decodeAt offset = .ok (i, next)) : offset < next ∧ next ≤ code.size := by
  have passed := Onward.bind Onward.readOpcode Onward.readOperand offset i next decoded
  omega

/-- An offset that a walk from the start has found, or the end of the buffer. -/
def Stop (code : Bytecode) (offset : Nat) : Prop :=
  offset ∈ code.walk.offsets ∨ offset = code.size

/-- A walk without a fault comes to its own start, and from each instruction to the next. -/
theorem walkFrom_faultless {code : Bytecode} {fuel start : Nat} (within : start ≤ code.size)
    (enough : code.size ≤ start + fuel) (faultless : (code.walkFrom fuel start).fault = none) :
    (start ∈ (code.walkFrom fuel start).offsets ∨ start = code.size) ∧
      ∀ offset i, (offset, i) ∈ (code.walkFrom fuel start).instructions →
        ∃ next, code.decodeAt offset = .ok (i, next) ∧
          (next ∈ (code.walkFrom fuel start).offsets ∨ next = code.size) := by
  induction fuel generalizing start with
  | zero =>
    refine ⟨.inr (by omega), fun offset i member => ?_⟩
    cases member
  | succ fuel ih =>
    rw [walkFrom] at faultless ⊢
    by_cases inside : start < code.size
    · rw [if_pos inside] at faultless ⊢
      cases decoded : code.decodeAt start with
      | error fault =>
        rw [decoded] at faultless
        cases faultless
      | ok found =>
        obtain ⟨first, behind⟩ := found
        obtain ⟨after, behind_le⟩ := decodeAt_onward decoded
        rw [decoded] at faultless
        obtain ⟨arrives, goes⟩ := ih behind_le (by omega) faultless
        -- The offsets of the rest of the walk are offsets of the whole.
        have more : ∀ next, next ∈ (code.walkFrom fuel behind).offsets ∨ next = code.size →
            next ∈ start :: (code.walkFrom fuel behind).offsets ∨ next = code.size :=
          fun next => Or.imp_left (List.mem_cons_of_mem start)
        refine ⟨.inl List.mem_cons_self, fun offset i member => ?_⟩
        rcases List.mem_cons.mp member with same | later
        · cases same
          exact ⟨behind, decoded, more behind arrives⟩
        · obtain ⟨next, read, leads⟩ := goes offset i later
          exact ⟨next, read, more next leads⟩
    · rw [if_neg inside]
      refine ⟨.inr (by omega), fun offset i member => ?_⟩
      cases member

/-- What acceptance says about the walk. -/
theorem verify_ok {code : Bytecode} {count : Nat} (accepted : code.verify = .ok count) :
    code.walk.fault = none ∧ code.walk.strayTransfer? = none := by
  simp only [verify] at accepted
  split at accepted
  · cases accepted
  · split at accepted
    · cases accepted
    · split at accepted
      · cases accepted
      · cases accepted
      · rename_i faultless straight
        exact ⟨faultless, straight⟩

/-- A stop is the end, or an instruction stands there that leads to stops only. -/
theorem Stop.cases {code : Bytecode} {count offset : Nat} (accepted : code.verify = .ok count)
    (stop : code.Stop offset) :
    offset = code.size ∨ ∃ i next, code.decodeAt offset = .ok (i, next) ∧ code.Stop next ∧
      ∀ target, i.target? = some target → code.Stop target := by
  obtain ⟨faultless, straight⟩ := verify_ok accepted
  rcases stop with found | ends
  · right
    obtain ⟨⟨here, i⟩, member, rfl⟩ := List.mem_map.mp found
    obtain ⟨next, decoded, leads⟩ :=
      (walkFrom_faultless (Nat.zero_le _) (by omega) faultless).2 here i member
    refine ⟨i, next, decoded, leads, fun target targets => .inl ?_⟩
    have kept := List.findSome?_eq_none_iff.mp straight (here, i) member
    simp only [targets] at kept
    split at kept
    · exact List.contains_iff_mem.mp (by assumption)
    · cases kept
  · exact .inl ends

theorem stop_zero {code : Bytecode} {count : Nat} (accepted : code.verify = .ok count) :
    code.Stop 0 :=
  (walkFrom_faultless (Nat.zero_le _) (by omega) (verify_ok accepted).1).1

theorem Stop.le_size {code : Bytecode} {count offset : Nat} (accepted : code.verify = .ok count)
    (stop : code.Stop offset) : offset ≤ code.size := by
  rcases stop.cases accepted with ends | ⟨i, next, decoded, -, -⟩
  · exact Nat.le_of_eq ends
  · have passed := decodeAt_onward decoded
    omega

end Bytecode

namespace Machine

/-- The instruction pointer and all return addresses are stops of the code. -/
structure Placed (m : Machine) : Prop where
  ip : m.code.Stop m.ip
  calls : ∀ address ∈ m.calls, m.code.Stop address

/-- What an instruction at a stop leads to is placed, if it was placed before. -/
theorem Placed.carried {m next : Machine} {i : Instruction} {behind : Nat} (placed : m.Placed)
    (onward : m.code.Stop behind) (leads : ∀ target, i.target? = some target → m.code.Stop target)
    (carried : Carried i { m with ip := behind, steps := m.steps + 1 } next) : next.Placed := by
  have code : next.code = m.code := carried.code
  rcases carried.control with ⟨-, -, ip, calls⟩ | ⟨jumps, calls⟩ | ⟨call, calls⟩ | ⟨-, calls⟩
  · exact ⟨by rw [code, ip]; exact onward, by rw [code, calls]; exact placed.calls⟩
  · exact ⟨by rw [code]; exact leads _ (Instruction.target?_of_jump? jumps),
      by rw [code, calls]; exact placed.calls⟩
  · refine ⟨by rw [code]; exact leads _ (by rw [call]; rfl), fun address member => ?_⟩
    rw [calls] at member
    rw [code]
    rcases List.mem_cons.mp member with rfl | before
    · exact onward
    · exact placed.calls address before
  · have stops : ∀ address ∈ next.ip :: next.calls, m.code.Stop address :=
      calls ▸ placed.calls
    exact ⟨by rw [code]; exact stops _ List.mem_cons_self,
      fun address member => by rw [code]; exact stops _ (List.mem_cons_of_mem _ member)⟩

end Machine

/-- A fault of control: there is no instruction where the machine looks for one. -/
def Fault.astray : Fault → Bool
  | .jumpOutOfRange _ | .badReturn _ | .undecodable _ | .rejected _ => true
  | .underflow | .wrongType .. | .emptySlot _ | .noConversion .. | .unknownHost _ => false

/-- Does not fail with a fault of control. -/
def Guided {α : Type} (outcome : Except Trouble α) : Prop :=
  ∀ fault, outcome = .error (.fault fault) → fault.astray = false

namespace Guided

theorem bind {α β : Type} {first : Except Trouble α} {next : α → Except Trouble β}
    (before : Guided first) (after : ∀ a, Guided (next a)) : Guided (first >>= next) := by
  cases first with
  | ok a => exact after a
  | error trouble =>
    intro fault failed
    exact before fault (by rw [Except.error.inj failed])

theorem ok {α : Type} (a : α) : Guided (.ok a : Except Trouble α) := nofun

theorem fault {α : Type} {fault : Fault} (keeps : fault.astray = false) :
    Guided (.error (.fault fault) : Except Trouble α) := by
  intro other failed
  cases failed
  exact keeps

theorem mishap {α : Type} (mishap : Mishap) :
    Guided (.error (.mishap mishap) : Except Trouble α) := nofun

theorem pop (stack : List Value) : Guided (Stack.pop stack) := by
  cases stack with
  | nil => exact fault rfl
  | cons value rest => exact ok _

theorem popNumber (stack : List Value) : Guided (Stack.popNumber stack) := by
  refine bind (pop stack) fun ⟨value, rest⟩ => ?_
  cases value with
  | number n => exact ok _
  | string | boolean | list | void => exact fault rfl

theorem popBoolean (stack : List Value) : Guided (Stack.popBoolean stack) := by
  refine bind (pop stack) fun ⟨value, rest⟩ => ?_
  cases value with
  | boolean b => exact ok _
  | number | string | list | void => exact fault rfl

theorem popList (stack : List Value) : Guided (Stack.popList stack) := by
  refine bind (pop stack) fun ⟨value, rest⟩ => ?_
  cases value with
  | list items => exact ok _
  | number | string | boolean | void => exact fault rfl

theorem popSame (stack : List Value) : Guided (Stack.popSame stack) := by
  refine bind (pop stack) fun ⟨b, rest⟩ => bind (pop rest) fun ⟨a, rest⟩ => ?_
  simp only
  split
  · exact ok _
  · exact fault rfl

theorem popMany (count : Nat) (stack : List Value) : Guided (Stack.popMany count stack) := by
  unfold Stack.popMany
  split
  · exact ok _
  · exact fault rfl

theorem itemPlace (index : Number) (length : Nat) : Guided (itemPlace index length) := by
  unfold Primer.itemPlace
  split
  · split
    · exact ok _
    · exact mishap _
  · exact mishap _

theorem checkArguments (values : List Value) (types : List Ty) :
    Guided (checkArguments values types) := by
  induction values generalizing types with
  | nil => exact ok _
  | cons value values ih =>
    cases types with
    | nil => exact ok _
    | cons expected types =>
      rw [Primer.checkArguments]
      split
      · exact ih types
      · exact fault rfl

theorem jump {m : Machine} {target : Nat} (within : target ≤ m.code.size) :
    Guided (m.jump target) := by
  rw [Machine.jump, if_pos within]
  exact ok _

/-- Only an address outside of the code leads astray. -/
theorem execute {m : Machine} {i : Instruction} (hosts : String → Option Signature)
    (targets : ∀ target, i.target? = some target → target ≤ m.code.size)
    (calls : ∀ address ∈ m.calls, address ≤ m.code.size) : Guided (m.execute hosts i) := by
  cases i with
  | jump target => exact bind (jump (targets target rfl)) fun _ => ok _
  | jumpIf target =>
    refine bind (popBoolean _) fun ⟨taken, stack⟩ => ?_
    cases taken with
    | true => exact bind (jump (targets target rfl)) fun _ => ok _
    | false => exact ok _
  | push value | free slot => exact ok _
  | pop | dup | store slot => exact bind (pop _) fun _ => ok _
  | arith op | order op => exact bind (popNumber _) fun _ => bind (popNumber _) fun _ => ok _
  | equal | notEqual => exact bind (popSame _) fun _ => ok _
  | load slot =>
    simp only [Machine.execute]
    split
    · exact ok _
    · exact fault rfl
  | invert => exact bind (popBoolean _) fun _ => ok _
  | negate => exact bind (popNumber _) fun _ => ok _
  | convert target =>
    refine bind (pop _) fun _ => ?_
    simp only
    split
    · split
      · exact ok _
      · exact mishap _
    · exact fault rfl
  | call target =>
    simp only [Machine.execute]
    split
    · exact mishap _
    · exact bind (jump (targets target rfl)) fun _ => ok _
  | ret =>
    simp only [Machine.execute]
    split
    · exact ok _
    · rename_i address rest active
      rw [if_pos (calls address (active ▸ List.mem_cons_self))]
      exact ok _
  | callHost name =>
    simp only [Machine.execute]
    split
    · exact bind (popMany _ _) fun _ => bind (checkArguments _ _) fun _ => ok _
    · exact fault rfl
  | makeList count => exact bind (popMany _ _) fun _ => ok _
  | getItem expected =>
    refine bind (popNumber _) fun _ => bind (popList _) fun _ => bind (itemPlace _ _) fun _ => ?_
    simp only
    split
    · exact ok _
    · exact mishap _
  | setItem =>
    exact bind (pop _) fun _ => bind (popNumber _) fun _ => bind (popList _) fun _ =>
      bind (itemPlace _ _) fun _ => ok _

end Guided

namespace Machine

variable {σ : Type} {hosts : HostTable (StateM σ)}

theorem Placed.turn {m next : Machine} {count : Nat} {w w' : σ}
    (accepted : m.code.verify = .ok count) (placed : m.Placed)
    (turns : m.turn hosts w = (.inl next, w')) : next.Placed := by
  obtain ⟨i, behind, decoded, carried⟩ := turn_carried turns
  have passed := Bytecode.decodeAt_onward decoded
  rcases placed.ip.cases accepted with ends | ⟨j, after, read, onward, leads⟩
  · omega
  · cases decoded.symm.trans read
    exact placed.carried onward leads carried

theorem Placed.reaches {m last : Machine} {turns count : Nat} {w w' : σ}
    (accepted : m.code.verify = .ok count) (placed : m.Placed)
    (reaches : Reaches hosts turns m w last w') : last.Placed ∧ last.code = m.code := by
  induction reaches with
  | refl m w => exact ⟨placed, rfl⟩
  | turn turns rest ih =>
    obtain ⟨i, behind, -, carried⟩ := turn_carried turns
    have code := carried.code
    obtain ⟨arrived, same⟩ := ih (by rw [code]; exact accepted) (placed.turn accepted turns)
    exact ⟨arrived, same.trans code⟩

/-- A turn at a stop does not fail for want of an instruction. -/
theorem Placed.ends {m : Machine} {finished : Finished} {count : Nat}
    (accepted : m.code.verify = .ok count) (placed : m.Placed)
    (ends : Ends hosts.signature? m finished) {fault : Fault} {offset : Nat}
    (failed : finished.error = some (.fatal fault offset)) : fault.astray = false := by
  cases ends with
  | beyond | halt | limit | mishap | host => cases failed
  | undecodable inside undecoded =>
    rcases placed.ip.cases accepted with ends | ⟨i, next, decoded, -⟩
    · omega
    · cases undecoded.symm.trans decoded
  | @fault i behind _ decoded troubled =>
    cases failed
    have passed := Bytecode.decodeAt_onward decoded
    rcases placed.ip.cases accepted with ends | ⟨i, next, read, -, leads⟩
    · omega
    · cases decoded.symm.trans read
      have guided : Guided (execute hosts.signature?
          { m with ip := behind, steps := m.steps + 1 } i) :=
        .execute _ (fun target found => (leads target found).le_size accepted)
          fun address member => (placed.calls address member).le_size accepted
      exact guided _ troubled

/-- A machine without active calls that loads an accepted buffer points to stops of it, with its
instruction pointer and with its return addresses, throughout a run; so the run does not fail for
want of an instruction. -/
theorem run_verified {code : Bytecode} {count : Nat} (accepted : code.verify = .ok count)
    (before : Machine) (idle : before.calls = []) (hosts : HostTable (StateM σ)) (w : σ) :
    ∃ loaded, before.load code = .ok loaded ∧
      (∀ turns m w', Reaches hosts turns { loaded with steps := 0 } w m w' →
        (m.ip ∈ code.walk.offsets ∨ m.ip = code.size) ∧
          ∀ address ∈ m.calls, address ∈ code.walk.offsets ∨ address = code.size) ∧
      ∀ fuel finished w', loaded.run hosts fuel w = (some finished, w') →
        ∀ fault offset, finished.error = some (.fatal fault offset) → fault.astray = false := by
  have loads : before.load code = .ok { before with code, ip := 0 } := by
    rw [load]
    split
    · rw [accepted]
    · rfl
  -- The loaded machine is about to jump, and there is nothing to return to.
  have start : Placed { before with code, ip := 0, steps := 0 } :=
    ⟨Bytecode.stop_zero accepted, by rw [idle]; nofun⟩
  refine ⟨_, loads, fun turns m w' reaches => ?_,
    fun fuel finished w' done fault offset failed => ?_⟩
  · obtain ⟨placed, same⟩ := start.reaches accepted reaches
    have ip := placed.ip
    have calls := placed.calls
    rw [same] at ip calls
    exact ⟨ip, calls⟩
  · obtain ⟨turns, last, w₁, reaches, ended⟩ := runFrom_finished done
    obtain ⟨placed, same⟩ := start.reaches accepted reaches
    exact placed.ends (by rw [same]; exact accepted) (turn_ends ended) failed

/-- A call at the very end of the buffer, where the return address is no instruction's offset; the
stack holds what an earlier run has left. -/
theorem run_verified_last_call :
    (Bytecode.ofList [0, 6, 0, 0, 0, 22, 21, 5, 0, 0, 0]).verify = .ok 3 ∧
      ∃ loaded, load { stack := [.boolean true] }
          (.ofList [0, 6, 0, 0, 0, 22, 21, 5, 0, 0, 0]) = .ok loaded ∧
        (∀ turns m w', Reaches (σ := Nat) {} turns { loaded with steps := 0 } 7 m w' →
          (m.ip ∈ (Bytecode.ofList [0, 6, 0, 0, 0, 22, 21, 5, 0, 0, 0]).walk.offsets ∨ m.ip = 11) ∧
            ∀ address ∈ m.calls,
              address ∈ (Bytecode.ofList [0, 6, 0, 0, 0, 22, 21, 5, 0, 0, 0]).walk.offsets ∨
                address = 11) ∧
        ∀ fuel finished w', loaded.run (μ := StateM Nat) {} fuel 7 = (some finished, w') →
          ∀ fault offset, finished.error = some (.fatal fault offset) → fault.astray = false :=
  have accepted : (Bytecode.ofList [0, 6, 0, 0, 0, 22, 21, 5, 0, 0, 0]).verify = .ok 3 := by rfl
  ⟨accepted, run_verified accepted { stack := [.boolean true] } rfl {} 7⟩

end Machine

end Primer
