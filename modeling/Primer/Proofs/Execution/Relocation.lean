import Primer.Proofs.ControlFlow
import Primer.Proofs.Execution.Parallel

/-!
Code inside longer code. A unit stands in longer code when its procedures are at the same addresses
there and its top-level code, without the return at its end, is at some other address. A run of the
unit is followed in the longer code turn by turn, until the unit comes to its return: up to there
either both runs go on or both fail.
-/

set_option autoImplicit false
set_option relaxedAutoImplicit false

namespace Primer

variable {σ : Type}

namespace Machine

variable {hosts : HostTable (StateM σ)} {m next last : Machine} {w w₁ w' : σ} {behind : Nat}

/-- At a jump a run goes on at its target. -/
theorem halts_at_jump {target : Nat} (decoded : m.code.decodeAt m.ip = .ok (.jump target, behind))
    (leads : target ≤ m.code.size) (unlimited : m.config.maxSteps = none) :
    m.Halts hosts w last w' ↔ m.stack.length ≤ m.config.maxStackSize ∧
      Halts hosts { m with ip := target, steps := m.steps + 1 } w last w' := by
  have inside : m.ip < m.code.size := by
    have onward := Bytecode.decodeAt_onward decoded
    omega
  have turns (room : m.stack.length ≤ m.config.maxStackSize) :
      m.turn hosts w = (.inl { m with ip := target, steps := m.steps + 1 }, w) := by
    have within := (exceeded?_eq_none_iff (m := { m with steps := m.steps + 1 }) unlimited).mpr room
    have lands := jump_inside (m := { m with ip := behind, steps := m.steps + 1 }) leads
    unfold turn step
    simp only [if_pos inside, within, decoded, execute, lands]
    rfl
  constructor
  · intro halts
    have room := halts.room unlimited inside
    exact ⟨room, (halts_of_turn (turns room)).mp halts⟩
  · rintro ⟨room, halts⟩
    exact (halts_of_turn (turns room)).mpr halts

/-- At a return a run ends when no call is active. -/
theorem halts_at_return (decoded : m.code.decodeAt m.ip = .ok (.ret, behind)) (idle : m.calls = [])
    (unlimited : m.config.maxSteps = none) :
    m.Halts hosts w last w' ↔ m.stack.length ≤ m.config.maxStackSize ∧
      last = { m with ip := behind, steps := m.steps + 1 } ∧ w' = w := by
  have inside : m.ip < m.code.size := by
    have onward := Bytecode.decodeAt_onward decoded
    omega
  have turns (room : m.stack.length ≤ m.config.maxStackSize) :
      m.turn hosts w = (.inr ⟨{ m with ip := behind, steps := m.steps + 1 }, none⟩, w) := by
    have within := (exceeded?_eq_none_iff (m := { m with steps := m.steps + 1 }) unlimited).mpr room
    have ends : execute hosts.signature? { m with ip := behind, steps := m.steps + 1 } .ret =
        .ok (.halt { m with ip := behind, steps := m.steps + 1 }) := by
      simp only [execute, idle]
      rfl
    unfold turn step
    simp only [if_pos inside, within, decoded, ends]
  constructor
  · intro halts
    have room := halts.room unlimited inside
    obtain ⟨same, rfl⟩ := (halts_of_ended (turns room)).mp halts
    cases same
    exact ⟨room, rfl, rfl⟩
  · rintro ⟨room, rfl, rfl⟩
    exact (halts_of_ended (turns room)).mpr ⟨rfl, rfl⟩

end Machine

/-- The instruction names the addresses that stand for those of its own. -/
theorem Instruction.retarget_shift {f : Nat → Nat} {base base' : Nat} {i : Instruction}
    (jumps : ∀ target, i.jump? = some target → f (base + target) = base' + target)
    (calls : ∀ target, i = .call target → f target = target) :
    (i.shift base).retarget f = i.shift base' := by
  cases i with
  | jump target =>
    have moved := jumps target rfl
    simp only [shift, retarget, Nat.add_comm target, moved]
  | jumpIf target =>
    have moved := jumps target rfl
    simp only [shift, retarget, Nat.add_comm target, moved]
  | call target => simp only [shift, retarget, calls target rfl]
  | _ => rfl

namespace Layout

/-- Where an address of the unit is when its top-level code is moved. -/
def relocated (l : Layout) (distance address : Nat) : Nat :=
  if address < l.main.base then address else address + distance

theorem relocated_of_lt {l : Layout} {address : Nat} (before : address < l.main.base)
    (distance : Nat) : l.relocated distance address = address :=
  if_pos before

theorem relocated_main (l : Layout) (distance offset : Nat) :
    l.relocated distance (l.main.base + offset) = l.main.base + distance + offset := by
  rw [relocated, if_neg (by omega)]
  omega

/-- The unit stands in longer code: its procedures are at the same addresses, and its top-level code
without the return at its end is moved by a distance. -/
structure Embeds (l : Layout) (top : Fragment) (distance : Nat) (l' : Layout) : Prop where
  main : l.main.code = top ++ [.ret]
  returnless : ∀ offset, top.at? offset ≠ some .ret
  below : ∀ p code, l.holds p code → p.address + code.size ≤ l.main.base
  held : ∀ p code, l.holds p code → l'.holds p code
  placed : ∀ offset i, top.at? offset = some i →
    l'.buffer.decodeAt (l.main.base + distance + offset) =
      .ok (i.shift (l.main.base + distance), l.main.base + distance + (offset + i.size))
  size : l.buffer.size = l.main.base + top.size + 1
  inside : l.main.base + distance + top.size < l'.buffer.size

/-- The machine is at the return at the end of the top-level code. -/
structure AtReturn (l : Layout) (top : Fragment) (m : Machine) : Prop where
  ip : m.ip = l.main.base + top.size
  idle : m.calls = []

variable {l l' : Layout} {top : Fragment} {distance : Nat} {claim : Claim} {r : Routine}
  {m m' : Machine} {callers : List Machine}

/-- The return addresses are inside the code. -/
theorem Active.back_le (active : l.Active claim r m callers) :
    ∀ address ∈ m.calls, address ≤ l.buffer.size := by
  induction active with
  | top idle =>
    rw [idle]
    nofun
  | called outer procedure call returns calls covers claimed ih =>
    rw [calls]
    intro address member
    rcases List.mem_cons.mp member with rfl | later
    · obtain ⟨offset, rfl, reach⟩ := returns
      exact outer.member.stands.covers_le reach
    · exact ih address later

/-- An instruction that control comes to leads to addresses inside the code. -/
theorem Member.leads_le (member : l.Member r) {offset : Nat} {i : Instruction}
    (reach : r.code.Reach offset) (found : r.code.at? offset = some i) {target : Nat}
    (leads : (i.shift r.base).LeadsTo target) : target ≤ l.buffer.size := by
  rcases leads with jumps | call
  · rw [Instruction.jump?_shift, Option.map_eq_some_iff] at jumps
    obtain ⟨inner, jumps, rfl⟩ := jumps
    rw [Nat.add_comm]
    exact member.stands.covers_le (.jump reach found jumps)
  · obtain rfl := shift_eq_call call
    obtain ⟨p, code, held, rfl⟩ := (member.stands.sound.uses _
      (Fragment.mem_plain.mpr ⟨Fragment.mem_of_at? found, rfl⟩)).2 target rfl
    exact (l.stands p code held).covers_le .start

namespace Embeds

variable (embeds : l.Embeds top distance l')

include embeds

/-- The procedures are in front of the top-level code. -/
theorem lt_base {p : Procedure} {code : Fragment} (held : l.holds p code) {ip : Nat}
    (covers : Routine.Covers ⟨p.address, code⟩ ip) : ip < l.main.base := by
  have inside := (l.stands p code held).covers_lt covers
  have below := embeds.below p code held
  simp only at inside
  omega

/-- What is inside the code of the unit is inside the longer code. -/
theorem relocated_le (target : Nat) (within : target ≤ l.buffer.size) :
    l.relocated distance target ≤ l'.buffer.size := by
  have size := embeds.size
  have inside := embeds.inside
  unfold relocated
  split <;> omega

/-- A call leads to the same address in the longer code. -/
theorem relocated_call (member : l.Member r) {offset target : Nat}
    (found : r.code.at? offset = some (.call target)) : l.relocated distance target = target := by
  obtain ⟨p, code, held, rfl⟩ := (member.stands.sound.uses _
    (Fragment.mem_plain.mpr ⟨Fragment.mem_of_at? found, rfl⟩)).2 target rfl
  exact relocated_of_lt (embeds.lt_base held (Routine.covers_base _)) distance

/-- The machine is at the return, or the same instruction stands at the address in the longer code
that stands for its own. -/
theorem fetch (active : l.Active claim r m callers) : l.AtReturn top m ∨
    ∃ i behind behind', l.buffer.decodeAt m.ip = .ok (i, behind) ∧
      l'.buffer.decodeAt (l.relocated distance m.ip) =
        .ok (i.retarget (l.relocated distance), behind') ∧
      (i.goesOn → behind' = l.relocated distance behind) ∧
      (∀ target, i.LeadsTo target → target ≤ l.buffer.size) ∧ (i = .ret → m.calls ≠ []) := by
  obtain ⟨offset, i, here, reach, found, decoded⟩ := active.fetch
  have member := active.member
  have leads : ∀ target, (i.shift r.base).LeadsTo target → target ≤ l.buffer.size :=
    fun target => member.leads_le reach found
  have calls : ∀ target, i = .call target → l.relocated distance target = target := by
    rintro target rfl
    exact embeds.relocated_call member found
  cases active with
  | top idle covers =>
    by_cases inside : offset < top.size
    · rw [embeds.main, Fragment.at?_append_left inside] at found
      have moved : (i.shift l.main.base).retarget (l.relocated distance) =
          i.shift (l.main.base + distance) :=
        Instruction.retarget_shift (fun target _ => l.relocated_main distance target) calls
      refine .inr ⟨_, _, _, decoded, ?_, fun _ => (l.relocated_main distance _).symm, leads, ?_⟩
      · rw [moved, here, relocated_main]
        exact embeds.placed offset i found
      · intro ret
        rw [shift_eq_ret ret] at found
        exact absurd found (embeds.returnless offset)
    · -- Behind the other instructions there is only the return.
      have within := Fragment.lt_size_of_at? found
      have positive := i.size_pos
      have one : Fragment.size [.ret] = 1 := rfl
      rw [embeds.main, Fragment.size_append, one] at within
      exact .inl ⟨by omega, idle⟩
  | @called _ _ _ _ p code back outer procedure _ _ calls' covers =>
    have stays : ∀ {place}, code.Reach place →
        l.relocated distance (p.address + place) = p.address + place := fun reached =>
      relocated_of_lt (embeds.lt_base procedure ⟨_, rfl, reached⟩) distance
    have moved : (i.shift p.address).retarget (l.relocated distance) = i.shift p.address :=
      Instruction.retarget_shift (fun target jumps => stays (.jump reach found jumps)) calls
    refine .inr ⟨_, _, p.address + (offset + i.size), decoded, ?_, fun goesOn => ?_, leads, ?_⟩
    · rw [moved, here, stays reach]
      exact (l'.stands p code (embeds.held p code procedure)).decodes found
    · rw [Instruction.goesOn_shift] at goesOn
      exact (stays (.next reach found goesOn)).symm
    · rw [calls']
      nofun

end Embeds

/-- The second machine does in the longer code what the first does in the unit. -/
structure Follows (l : Layout) (distance : Nat) (l' : Layout) (m m' : Machine) : Prop where
  active : ∃ r callers, l.Active (fun _ _ _ => True) r m callers
  code : m.code = l.buffer
  code' : m'.code = l'.buffer
  alike : m.Alike (l.relocated distance) Set.univ m'
  ip : m'.ip = l.relocated distance m.ip

variable {hosts : HostTable (StateM σ)}

/-- Before the return the two machines take their turn together, or neither of their runs comes to
an end without an error. -/
theorem Follows.turn (embeds : l.Embeds top distance l') (follows : l.Follows distance l' m m')
    (w : σ) : l.AtReturn top m ∨
      (∃ next next' w', m.turn hosts w = (.inl next, w') ∧ m'.turn hosts w = (.inl next', w') ∧
        l.Follows distance l' next next') ∨
      ∀ last w', ¬m.Halts hosts w last w' ∧ ¬m'.Halts hosts w last w' := by
  obtain ⟨r, callers, active⟩ := follows.active
  rcases embeds.fetch active with ends | ⟨i, behind, behind', decoded, decoded', same, leads, stays⟩
  · exact .inl ends
  · right
    have back := active.back_le
    have fits := embeds.relocated_le
    rw [← follows.code] at decoded leads back fits
    rw [← follows.code'] at decoded' fits
    rw [← follows.ip] at decoded'
    have together : Machine.Together (l.relocated distance) Set.univ i.sets (m.turn hosts w)
        (m'.turn hosts w) :=
      follows.alike.turn follows.ip decoded decoded' same (fun _ _ => trivial) fits leads back w
    generalize turned : m.turn hosts w = outcome at together
    generalize turned' : m'.turn hosts w = outcome' at together
    cases together with
    | goesOn alike ip =>
      obtain ⟨_, _, _, carried⟩ := Machine.turn_carried turned
      obtain ⟨_, _, _, carried'⟩ := Machine.turn_carried turned'
      obtain ⟨r', active'⟩ := active.turn keeps_trivial follows.code turned
      exact .inl ⟨_, _, _, rfl, rfl, ⟨r', _, active'⟩, carried.code.trans follows.code,
        carried'.code.trans follows.code', alike.mono Set.subset_union_left, ip⟩
    | ends error alike =>
      refine .inr fun last w' => ?_
      cases error with
      | some error =>
        rw [Machine.halts_of_ended turned, Machine.halts_of_ended turned']
        exact ⟨nofun, nofun⟩
      | none =>
        -- Only a return without an active call ends a run without an error.
        cases Machine.turn_ends turned with
        | beyond outside =>
          have onward := Bytecode.decodeAt_onward decoded
          omega
        | halt returns idle =>
          cases decoded.symm.trans returns
          exact absurd idle (stays rfl)

/-- The machines are at the return of the unit, and at what stands in its place in the longer code.
The stack has room there. -/
structure Meets (l : Layout) (top : Fragment) (distance : Nat) (l' : Layout) (n n' : Machine) :
    Prop where
  follows : l.Follows distance l' n n'
  arrived : l.AtReturn top n
  room : n.stack.length ≤ n.config.maxStackSize

theorem Follows.meets_of_halts (embeds : l.Embeds top distance l')
    (follows : l.Follows distance l' m m') (unlimited : m.config.maxSteps = none)
    (arrived : l.AtReturn top m) {w w' : σ} {last : Machine}
    (halts : m.Halts hosts w last w' ∨ m'.Halts hosts w last w') :
    l.Meets top distance l' m m' := by
  refine ⟨follows, arrived, ?_⟩
  rcases halts with halts | halts
  · refine halts.room unlimited ?_
    rw [follows.code, arrived.ip, embeds.size]
    omega
  · have room := halts.room (by rw [follows.alike.config]; exact unlimited) (by
      rw [follows.code', follows.ip, arrived.ip, relocated_main]
      exact embeds.inside)
    rwa [follows.alike.stack, follows.alike.config] at room

/-- When one of the runs comes to an end without an error, the machines come together to the
return. -/
theorem Follows.meets (embeds : l.Embeds top distance l') (follows : l.Follows distance l' m m')
    (unlimited : m.config.maxSteps = none) {w : σ}
    (halts : ∃ last w', m.Halts hosts w last w' ∨ m'.Halts hosts w last w') :
    ∃ n n' w₁, l.Meets top distance l' n n' ∧ (∃ count, Machine.Reaches hosts count m w n w₁) ∧
      ∃ count, Machine.Reaches hosts count m' w n' w₁ := by
  obtain ⟨last, w', fuel, ends⟩ : ∃ last w' fuel, m.runFrom hosts fuel w = (some ⟨last, none⟩, w') ∨
      m'.runFrom hosts fuel w = (some ⟨last, none⟩, w') := by
    obtain ⟨last, w', ⟨fuel, done⟩ | ⟨fuel, done⟩⟩ := halts
    · exact ⟨last, w', fuel, .inl done⟩
    · exact ⟨last, w', fuel, .inr done⟩
  clear halts
  induction fuel generalizing m m' w with
  | zero => rcases ends with done | done <;> cases done
  | succ fuel ih =>
    have halts : m.Halts hosts w last w' ∨ m'.Halts hosts w last w' :=
      ends.imp (fun done => ⟨_, done⟩) fun done => ⟨_, done⟩
    rcases follows.turn embeds w with arrived | ⟨next, next', w₁, turns, turns', onward⟩ | never
    · exact ⟨m, m', w, follows.meets_of_halts embeds unlimited arrived halts, ⟨0, .refl m w⟩, 0,
        .refl m' w⟩
    · rw [Machine.runFrom_succ, Machine.runFrom_succ, turns, turns'] at ends
      obtain ⟨_, _, _, carried⟩ := Machine.turn_carried turns
      obtain ⟨n, n', w₂, meets, ⟨count, reaches⟩, count', reaches'⟩ :=
        ih onward ((congrArg Config.maxSteps carried.config).trans unlimited) ends
      exact ⟨n, n', w₂, meets, ⟨_, .turn turns reaches⟩, _, .turn turns' reaches'⟩
    · rcases halts with halts | halts
      · exact absurd halts (never last w').1
      · exact absurd halts (never last w').2

end Layout

end Primer
