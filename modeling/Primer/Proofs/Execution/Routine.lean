import Primer.Proofs.Compilation.Shelf
import Primer.Proofs.Execution.Turn

/-!
Runs of code with procedures. The buffer holds routines: the top-level code, and the code of every
procedure. A run is followed together with the machines that made the calls which are active:
control stays in the routine that was called last until it returns to the one that called it. What
each active call keeps is proved once from what a turn keeps.
-/

set_option autoImplicit false
set_option relaxedAutoImplicit false

namespace Primer

/-- Code that stands at an address. -/
structure Routine where
  base : Nat
  code : Fragment

namespace Routine

/-- The buffer holds the routine. Its jumps stay inside it, its calls lead to given addresses, and
it is not left through its end. -/
structure Stands (r : Routine) (buffer : Bytecode) (callable : Nat → Prop) : Prop where
  spells : buffer.Spells r.base (r.code.shift r.base)
  sound : r.code.Sound callable
  sealed : ¬r.code.Exits

/-- Control can come to the address inside the routine. -/
def Covers (r : Routine) (ip : Nat) : Prop := ∃ offset, ip = r.base + offset ∧ r.code.Reach offset

theorem covers_base (r : Routine) : r.Covers r.base := ⟨0, rfl, .start⟩

variable {r : Routine} {buffer : Bytecode} {callable : Nat → Prop}

theorem Stands.decodes (stands : r.Stands buffer callable) {offset : Nat} {i : Instruction}
    (found : r.code.at? offset = some i) :
    buffer.decodeAt (r.base + offset) = .ok (i.shift r.base, r.base + (offset + i.size)) := by
  have shifted : (r.code.shift r.base).at? offset = some (i.shift r.base) := by
    rw [Fragment.at?_shift, found]
    rfl
  have decoded := stands.spells.decodes offset _ shifted
  rwa [Instruction.size_shift, Nat.add_assoc] at decoded

/-- Where control comes to, an instruction of the routine is decoded. -/
theorem Stands.fetch (stands : r.Stands buffer callable) {offset : Nat}
    (reach : r.code.Reach offset) : ∃ i, r.code.at? offset = some i ∧
      buffer.decodeAt (r.base + offset) = .ok (i.shift r.base, r.base + (offset + i.size)) := by
  have closed := stands.sound.closed
  obtain ⟨i, found⟩ := (reach.boundary closed).at?_isSome (reach.lt_size closed stands.sealed)
  exact ⟨i, found, stands.decodes found⟩

theorem Stands.covers_lt (stands : r.Stands buffer callable) {ip : Nat} (covers : r.Covers ip) :
    r.base ≤ ip ∧ ip < r.base + r.code.size := by
  obtain ⟨offset, rfl, reach⟩ := covers
  obtain ⟨i, found, -⟩ := stands.fetch reach
  have within := Fragment.lt_size_of_at? found
  have positive := i.size_pos
  omega

theorem Stands.covers_le (stands : r.Stands buffer callable) {offset : Nat}
    (reach : r.code.Reach offset) : r.base + offset ≤ buffer.size := by
  have inside := stands.covers_lt ⟨offset, rfl, reach⟩
  have fits := stands.spells.fits
  rw [Fragment.size_shift] at fits
  omega

end Routine

/-- A buffer with its routines: a jump to the top-level code, that code, and the procedures. -/
structure Layout where
  buffer : Bytecode
  main : Routine
  /-- The procedures, each with its code. -/
  holds : Procedure → Fragment → Prop
  entry : ∃ next, buffer.decodeAt 0 = .ok (.jump main.base, next)
  mainStands : main.Stands buffer fun target => ∃ p code, holds p code ∧ p.address = target
  stands : ∀ p code, holds p code →
    Routine.Stands ⟨p.address, code⟩ buffer fun target => ∃ p code, holds p code ∧
    p.address = target

/-- The machines that made the active calls, innermost first, after the turn of a machine. -/
def Machine.callersAfter (m : Machine) (callers : List Machine) : List Machine :=
  match m.code.decodeAt m.ip with
  | .ok (.call _, _) => m :: callers
  | .ok (.ret, _) => callers.tail
  | _ => callers

/-- A turn ends the innermost call at most. -/
theorem Machine.suffix_callersAfter {m s : Machine} {outer callers : List Machine}
    (inside : s :: outer <:+ callers) : outer <:+ m.callersAfter callers := by
  have within : outer <:+ callers.tail := by
    obtain ⟨more, rfl⟩ := inside
    cases more with
    | nil => exact List.suffix_rfl
    | cons first more => exact ⟨more ++ [s], by simp⟩
  unfold Machine.callersAfter
  split
  · exact within.trans ((List.tail_suffix _).trans (List.suffix_cons _ _))
  · exact within
  · exact within.trans (List.tail_suffix _)

variable {σ : Type}

/-- The machines that a run passes, each with those that made the calls which are active then. -/
inductive Machine.Passes (hosts : HostTable (StateM σ)) (start : Machine) (w : σ) :
    Machine → List Machine → σ → Prop
  | start : Passes hosts start w start [] w
  | turn {m next : Machine} {callers : List Machine} {w₁ w₂ : σ}
      (before : Passes hosts start w m callers w₁) (turns : m.turn hosts w₁ = (.inl next, w₂)) :
      Passes hosts start w next (m.callersAfter callers) w₂

/-- The machine that a run has come to after a number of turns, with those that made the calls which
are active. -/
def Machine.passed? (hosts : HostTable (StateM σ)) (start : Machine) (w : σ) :
    Nat → Option (Machine × List Machine × σ)
  | 0 => some (start, [], w)
  | count + 1 => do
    let (m, callers, w₁) ← passed? hosts start w count
    match m.turn hosts w₁ with
    | (.inl next, w₂) => some (next, m.callersAfter callers, w₂)
    | (.inr _, _) => none

theorem Machine.passes_of_passed? {hosts : HostTable (StateM σ)} {start m : Machine}
    {callers : List Machine} {w w' : σ} {count : Nat}
    (passed : passed? hosts start w count = some (m, callers, w')) :
    Passes hosts start w m callers w' := by
  induction count generalizing m callers w' with
  | zero =>
    cases passed
    exact .start
  | succ count ih =>
    obtain ⟨⟨m₁, callers₁, w₁⟩, before, last⟩ := Option.bind_eq_some_iff.mp passed
    rcases turns : m₁.turn hosts w₁ with ⟨next | finished, w₂⟩
    · simp only [turns] at last
      cases last
      exact (ih before).turn turns
    · simp only [turns] at last
      cases last

theorem Machine.Passes.reaches {hosts : HostTable (StateM σ)} {start m last : Machine}
    {callers : List Machine} {w w₁ w₂ : σ} {count : Nat}
    (passes : Passes hosts start w m callers w₁)
    (reaches : Reaches hosts count m w₁ last w₂) : ∃ more, Passes hosts start w last more w₂ := by
  induction reaches generalizing callers with
  | refl => exact ⟨callers, passes⟩
  | turn turns rest ih => exact ih (passes.turn turns)

namespace Layout

/-- A routine of the layout. -/
def Member (l : Layout) (r : Routine) : Prop :=
  r = l.main ∨ ∃ p code, l.holds p code ∧ r = ⟨p.address, code⟩

theorem Member.stands {l : Layout} {r : Routine} (member : l.Member r) :
    r.Stands l.buffer fun target => ∃ p code, l.holds p code ∧ p.address = target := by
  rcases member with rfl | ⟨p, code, held, rfl⟩
  · exact l.mainStands
  · exact l.stands p code held

/-- What is claimed of an active call: of the routine, the machines that made the calls, innermost
first, and the machine that is in the routine or has called another from there. -/
abbrev Claim := Routine → List Machine → Machine → Prop

/-- The machine is in a routine that was entered by the innermost of the active calls, and so on
outwards; of each of these calls something is claimed. -/
inductive Active (l : Layout) (claim : Claim) : Routine → Machine → List Machine → Prop
  | top {m : Machine} (idle : m.calls = []) (covers : l.main.Covers m.ip)
      (claimed : claim l.main [] m) : Active l claim l.main m []
  | called {r : Routine} {s m : Machine} {callers : List Machine} {p : Procedure} {code : Fragment}
      {back : Nat} (outer : Active l claim r s callers) (procedure : l.holds p code)
      (call : l.buffer.decodeAt s.ip = .ok (.call p.address, back)) (returns : r.Covers back)
      (calls : m.calls = back :: s.calls) (covers : Routine.Covers ⟨p.address, code⟩ m.ip)
      (claimed : claim ⟨p.address, code⟩ (s :: callers) m) :
      Active l claim ⟨p.address, code⟩ m (s :: callers)

variable {l : Layout} {claim : Claim} {hosts : HostTable (StateM σ)}

theorem Active.member {r : Routine} {m : Machine} {callers : List Machine}
    (active : l.Active claim r m callers) : l.Member r := by
  cases active with
  | top => exact .inl rfl
  | called _ procedure => exact .inr ⟨_, _, procedure, rfl⟩

theorem Active.covers {r : Routine} {m : Machine} {callers : List Machine}
    (active : l.Active claim r m callers) : r.Covers m.ip := by
  cases active with
  | top _ covers => exact covers
  | called _ _ _ _ _ covers => exact covers

theorem Active.claimed {r : Routine} {m : Machine} {callers : List Machine}
    (active : l.Active claim r m callers) : claim r callers m := by
  cases active with
  | top _ _ claimed => exact claimed
  | called _ _ _ _ _ _ claimed => exact claimed

/-- Inside a routine the machine may go on while the calls around it stay, if what is claimed from
then on of the machines that made these calls follows from what was claimed. -/
theorem Active.renew {claim' : Claim} {r : Routine} {m next : Machine} {callers : List Machine}
    (active : l.Active claim r m callers)
    (waits : ∀ {r s outer}, s :: outer <:+ callers → claim r outer s → claim' r outer s)
    (calls : next.calls = m.calls) (covers : r.Covers next.ip) (claimed : claim' r callers next) :
    l.Active claim' r next callers := by
  induction active generalizing next with
  | top idle => exact .top (calls.trans idle) covers claimed
  | called outer procedure call returns calls' _ _ ih =>
    have outside := ih (fun inner => waits (inner.trans (List.suffix_cons _ _))) rfl outer.covers
      (waits List.suffix_rfl outer.claimed)
    exact .called outside procedure call returns (calls.trans calls') covers claimed

/-- The machine is at an instruction of a routine and takes a turn. -/
structure At (hosts : HostTable (StateM σ)) (l : Layout) (r : Routine) (offset : Nat)
    (i : Instruction) (m next : Machine) : Prop where
  member : l.Member r
  here : m.ip = r.base + offset
  found : r.code.at? offset = some i
  buffer : m.code = l.buffer
  turns : ∃ w w', m.turn hosts w = (.inl next, w')

theorem At.decoded {r : Routine} {offset : Nat} {i : Instruction} {m next : Machine}
    (place : At hosts l r offset i m next) :
    m.code.decodeAt m.ip = .ok (i.shift r.base, r.base + (offset + i.size)) := by
  rw [place.buffer, place.here]
  exact place.member.stands.decodes place.found

/-- A call leads to its target. -/
theorem At.called {r : Routine} {offset target : Nat} {m next : Machine}
    (place : At hosts l r offset (.call target) m next) : next.ip = target := by
  obtain ⟨w, w', turns⟩ := place.turns
  exact (Machine.turn_called turns place.decoded).1

/-- A claim that turns keep: those inside a routine, those that enter one, and those that come back
from one. -/
structure Keeps (hosts : HostTable (StateM σ)) (l : Layout) (claim : Claim) : Prop where
  moves : ∀ {r offset i m next callers after}, At hosts l r offset i m next → i.isCall = false →
    next.ip = r.base + after → (i.goesOn ∧ after = offset + i.size ∨ i.jump? = some after) →
    claim r callers m → claim r callers next
  enters : ∀ {r offset m next callers p code}, At hosts l r offset (.call p.address) m next →
    l.holds p code → claim r callers m → claim ⟨p.address, code⟩ (m :: callers) next
  returns : ∀ {r offset s callers p code offset' m next}, l.Member r → s.ip = r.base + offset →
    r.code.at? offset = some (.call p.address) → l.holds p code → claim r callers s →
    At hosts l ⟨p.address, code⟩ offset' .ret m next →
    next.ip = r.base + (offset + (Instruction.call p.address).size) →
    claim ⟨p.address, code⟩ (s :: callers) m → claim r callers next

/-- A turn of a machine that leads from one claim to another: of the machines that made the active
calls, and of the machine itself, which stays in its routine, enters another or comes back. -/
structure Leads (hosts : HostTable (StateM σ)) (l : Layout) (claim claim' : Claim)
    (m next : Machine) (callers : List Machine) : Prop where
  waits : ∀ {r s outer}, s :: outer <:+ callers → claim r outer s → claim' r outer s
  moves : ∀ {r offset i after}, At hosts l r offset i m next → i.isCall = false →
    next.ip = r.base + after → (i.goesOn ∧ after = offset + i.size ∨ i.jump? = some after) →
    claim r callers m → claim' r callers next
  enters : ∀ {r offset p code}, At hosts l r offset (.call p.address) m next →
    l.holds p code → claim r callers m →
    claim' r callers m ∧ claim' ⟨p.address, code⟩ (m :: callers) next
  returns : ∀ {r offset s outer p code offset'}, callers = s :: outer → l.Member r →
    s.ip = r.base + offset → r.code.at? offset = some (.call p.address) → l.holds p code →
    claim r outer s → At hosts l ⟨p.address, code⟩ offset' .ret m next →
    next.ip = r.base + (offset + (Instruction.call p.address).size) →
    claim ⟨p.address, code⟩ callers m → claim' r outer next

theorem Keeps.leads (keeps : Keeps hosts l claim) (m next : Machine) (callers : List Machine) :
    Leads hosts l claim claim m next callers where
  waits := fun _ => id
  moves := keeps.moves
  enters := fun place held claimed => ⟨claimed, keeps.enters place held claimed⟩
  returns := by
    rintro r offset s outer p code offset' rfl
    exact keeps.returns

theorem callersAfter_plain {m : Machine} {i : Instruction} {behind : Nat}
    (decoded : m.code.decodeAt m.ip = .ok (i, behind)) (stays : i.isCall = false)
    (goesOn : i ≠ .ret) (callers : List Machine) : m.callersAfter callers = callers := by
  rw [Machine.callersAfter, decoded]
  cases i <;> first | rfl | exact absurd rfl goesOn | cases stays

theorem shift_eq_call {i : Instruction} {distance target : Nat}
    (same : i.shift distance = .call target) : i = .call target := by
  cases i <;> first | exact same | cases same

theorem shift_eq_ret {i : Instruction} {distance : Nat} (same : i.shift distance = .ret) :
    i = .ret := by
  cases i <;> first | exact same | cases same

theorem isCall_shift (i : Instruction) (distance : Nat) : (i.shift distance).isCall = i.isCall := by
  cases i <;> rfl

/-- A turn inside a routine leaves the active calls as they are. -/
theorem At.callersAfter_eq {r : Routine} {offset after : Nat} {i : Instruction} {m next : Machine}
    {callers : List Machine} (place : At hosts l r offset i m next) (stays : i.isCall = false)
    (leads : i.goesOn ∧ after = offset + i.size ∨ i.jump? = some after) :
    m.callersAfter callers = callers := by
  refine callersAfter_plain place.decoded (by rwa [isCall_shift]) (fun ret => ?_) callers
  rw [shift_eq_ret ret] at leads
  rcases leads with ⟨goesOn, -⟩ | jumps
  · cases goesOn
  · cases jumps

/-- Where a machine in a routine is, and what it decodes. -/
theorem Active.fetch {r : Routine} {m : Machine} {callers : List Machine}
    (active : l.Active claim r m callers) : ∃ offset i, m.ip = r.base + offset ∧
      r.code.Reach offset ∧ r.code.at? offset = some i ∧
      l.buffer.decodeAt m.ip = .ok (i.shift r.base, r.base + (offset + i.size)) := by
  obtain ⟨offset, here, reach⟩ := active.covers
  obtain ⟨i, found, decoded⟩ := active.member.stands.fetch reach
  exact ⟨offset, i, here, reach, found, here ▸ decoded⟩

/-- After a turn the active calls are those before it, but for the one that begins or ends. -/
theorem Active.advance {claim' : Claim} {r : Routine} {m next : Machine} {callers : List Machine}
    (leads : Leads hosts l claim claim' m next callers) (active : l.Active claim r m callers)
    (buffer : m.code = l.buffer) {w w' : σ} (turns : m.turn hosts w = (.inl next, w')) :
    ∃ r', l.Active claim' r' next (m.callersAfter callers) := by
  obtain ⟨offset, i, here, reach, found, decoded⟩ := active.fetch
  obtain ⟨j, behind, read, carried⟩ := Machine.turn_carried turns
  rw [buffer, decoded] at read
  cases read
  rw [← buffer] at decoded
  have place : At hosts l r offset i m next :=
    ⟨active.member, here, found, buffer, w, w', turns⟩
  rcases carried.control with ⟨goesOn, stays, ip, calls⟩ | ⟨jumps, calls⟩ | ⟨call, calls⟩ |
    ⟨ret, calls⟩
  · rw [Instruction.goesOn_shift] at goesOn
    rw [callersAfter_plain decoded stays
      (by rintro same; rw [shift_eq_ret same] at goesOn; cases goesOn)]
    rw [isCall_shift] at stays
    exact ⟨r, active.renew leads.waits calls ⟨_, ip, .next reach found goesOn⟩
      (leads.moves place stays ip (.inl ⟨goesOn, rfl⟩) active.claimed)⟩
  · have plain : (i.shift r.base).isCall = false ∧ i.shift r.base ≠ .ret := by
      cases i <;> simp [Instruction.shift, Instruction.jump?, Instruction.isCall] at jumps ⊢
    rw [callersAfter_plain decoded plain.1 plain.2]
    rw [Instruction.jump?_shift, Option.map_eq_some_iff] at jumps
    obtain ⟨target, jumps, lands⟩ := jumps
    rw [Nat.add_comm] at lands
    exact ⟨r, active.renew leads.waits calls ⟨target, lands.symm, .jump reach found jumps⟩
      (leads.moves place (by rw [← isCall_shift]; exact plain.1) lands.symm (.inr jumps)
        active.claimed)⟩
  · obtain rfl := shift_eq_call call
    have fits := active.member.stands.sound.uses _ (Fragment.mem_plain.mpr
      ⟨Fragment.mem_of_at? found, rfl⟩)
    obtain ⟨p, code, held, same⟩ := fits.2 _ rfl
    rw [Machine.callersAfter, decoded]
    rw [← same] at found decoded place
    obtain ⟨stays, entered⟩ := leads.enters place held active.claimed
    refine ⟨_, .called (active.renew leads.waits rfl active.covers stays) held (buffer ▸ decoded)
      ⟨_, rfl, .next reach found rfl⟩ calls ?_ entered⟩
    rw [← same]
    exact Routine.covers_base _
  · obtain rfl := shift_eq_ret ret
    rw [Machine.callersAfter, decoded]
    cases active with
    | top idle => rw [show _ = _ from calls] at idle; cases idle
    | @called r s _ callers p code back outer procedure call returns calls' covers claimed =>
      obtain ⟨offset', j, here', reach', found', decoded'⟩ := outer.fetch
      rw [call] at decoded'
      obtain rfl := shift_eq_call (congrArg Prod.fst (Except.ok.inj decoded')).symm
      have back_eq : back = r.base + (offset' + (Instruction.call p.address).size) :=
        congrArg Prod.snd (Except.ok.inj decoded')
      have same : next.ip :: next.calls = back :: s.calls := by
        rw [← calls']
        exact calls.symm
      obtain ⟨ip, rest⟩ := List.cons.inj same
      refine ⟨r, outer.renew (fun inner => leads.waits (inner.trans (List.suffix_cons _ _))) rest
        (ip ▸ returns) ?_⟩
      exact leads.returns rfl outer.member here' found' procedure outer.claimed place
        (ip.trans back_eq) claimed

/-- A turn keeps what is claimed of the active calls. -/
theorem Active.turn (keeps : Keeps hosts l claim) {r : Routine} {m next : Machine}
    {callers : List Machine} (active : l.Active claim r m callers) (buffer : m.code = l.buffer)
    {w w' : σ} (turns : m.turn hosts w = (.inl next, w')) :
    ∃ r', l.Active claim r' next (m.callersAfter callers) :=
  active.advance (keeps.leads _ _ _) buffer turns

/-- What is claimed may depend on how far the run has come. If it is right when the top-level code
is entered, and every turn leads from what is claimed before it to what is claimed after it, then it
is right throughout the run. -/
theorem Active.follows {claim : Machine → List Machine → σ → Claim} {start m : Machine}
    {callers : List Machine} {w w' : σ}
    (leads : ∀ {m next callers w₁ w₂}, Machine.Passes hosts start w m callers w₁ →
      m.turn hosts w₁ = (.inl next, w₂) →
      Leads hosts l (claim m callers w₁) (claim next (m.callersAfter callers) w₂) m next callers)
    (passes : Machine.Passes hosts start w m callers w') (buffer : start.code = l.buffer)
    (zero : start.ip = 0) (idle : start.calls = [])
    (begins : ∀ next w', start.turn hosts w = (.inl next, w') → next.ip = l.main.base →
      claim next [] w' l.main [] next) :
    m.code = l.buffer ∧ (m = start ∧ callers = [] ∧ w' = w ∨
      ∃ r, l.Active (claim m callers w') r m callers) := by
  induction passes with
  | start => exact ⟨buffer, .inl ⟨rfl, rfl, rfl⟩⟩
  | @turn m next callers w₁ w₂ before turns ih =>
    obtain ⟨code, known⟩ := ih
    obtain ⟨j, behind, read, carried⟩ := Machine.turn_carried turns
    refine ⟨carried.code.trans code, .inr ?_⟩
    rcases known with ⟨rfl, rfl, rfl⟩ | ⟨r, active⟩
    · obtain ⟨behind', decoded⟩ := l.entry
      rw [buffer, zero, decoded] at read
      cases read
      rw [← buffer, ← zero] at decoded
      refine ⟨l.main, ?_⟩
      rw [callersAfter_plain decoded rfl nofun]
      rcases carried.control with ⟨goesOn, -, -, -⟩ | ⟨jumps, calls⟩ | ⟨call, -⟩ | ⟨ret, -⟩
      · cases goesOn
      · have base : l.main.base = next.ip := Option.some.inj jumps
        refine .top (calls.trans idle) ?_ (begins next w₂ turns base.symm)
        rw [← base]
        exact Routine.covers_base _
      · cases call
      · cases ret
    · exact active.advance (leads before turns) code turns

/-- What is claimed when the top-level code is entered holds, with every active call, throughout a
run. -/
theorem Active.passes (keeps : Keeps hosts l claim) {start m : Machine} {callers : List Machine}
    {w w' : σ} (passes : Machine.Passes hosts start w m callers w') (buffer : start.code = l.buffer)
    (zero : start.ip = 0) (idle : start.calls = [])
    (begins : ∀ next w', start.turn hosts w = (.inl next, w') → claim l.main [] next) :
    m.code = l.buffer ∧ (m = start ∧ callers = [] ∧ w' = w ∨
      ∃ r, l.Active claim r m callers) :=
  Active.follows (fun _ _ => keeps.leads _ _ _) passes buffer zero idle
    fun next w' turns _ => begins next w' turns

end Layout

namespace Compiler

/-- How a procedure that the compiler knows was made: by a definition of an allowed kind, in a state
that knew the procedures before it. Its code stands in its region of the library. -/
structure Makes (allowed : Node → Prop) (c : Compiler) (p : Procedure) (m : Making) : Prop where
  kind : allowed m.definition
  table : m.before.hosts = c.hosts
  finished : m.draft.finish = p
  region : ∃ after less more, c.procedures = m.before.procedures ++ p :: after ∧
    Library.Region c.procedures c.library p ((after.map (·.address)).headD c.libraryEnd) less m.code
      more

/-- The code of a procedure that the compiler knows. -/
def Holds (allowed : Node → Prop) (c : Compiler) (p : Procedure) (code : Fragment) : Prop :=
  ∃ m, c.Makes allowed p m ∧ m.code = code

variable {allowed : Node → Prop} {c : Compiler}

theorem holds_of_mem (shelf : Shelf allowed c.hosts c.procedures c.library) {p : Procedure}
    (member : p ∈ c.procedures) : ∃ code, c.Holds allowed p code := by
  obtain ⟨before, after, split⟩ := List.append_of_mem member
  obtain ⟨less, more, m, kind, table, rfl, finished, region⟩ := shelf.region split
  exact ⟨m.code, m, ⟨kind, table, finished, after, less, more, split, region⟩, rfl⟩

theorem Holds.mem {p : Procedure} {code : Fragment} (held : c.Holds allowed p code) :
    p ∈ c.procedures := by
  obtain ⟨m, makes, -⟩ := held
  obtain ⟨after, less, more, split, -⟩ := makes.region
  rw [split]
  simp

/-- The instructions of a procedure stand in the library. -/
theorem Holds.mem_library {p : Procedure} {code : Fragment} (held : c.Holds allowed p code)
    {i : Instruction} (member : i ∈ code) : i.shift p.address ∈ c.library := by
  obtain ⟨m, makes, rfl⟩ := held
  obtain ⟨after, less, more, -, region⟩ := makes.region
  rw [region.parts]
  exact List.mem_append_left _ (List.mem_append_right _ (List.mem_map_of_mem member))

theorem Callable.defined {target : Nat} (callable : c.Callable target) (outside : c.draft = none) :
    ∃ p ∈ c.procedures, p.address = target := by
  rcases callable with defined | ⟨draft, inside, -⟩
  · exact defined
  · rw [outside] at inside
    cases inside

end Compiler

/-- The layout is that of a unit: the buffer is assembled from the top-level code, and the
procedures are those that the compiler knows. -/
structure Layout.Of (allowed : Node → Prop) (c : Compiler) (top : Fragment) (l : Layout) :
    Prop where
  buffer : l.buffer = c.assemble (top ++ [.ret])
  main : l.main = ⟨c.libraryEnd, top ++ [.ret]⟩
  holds : l.holds = c.Holds allowed

namespace Compiler

variable {allowed : Node → Prop} {c : Compiler}

/-- The code of a procedure stands in the library. -/
def Stores (c : Compiler) (p : Procedure) (code : Fragment) : Prop :=
  ∃ stop less more, Library.Region c.procedures c.library p stop less code more

/-- The layout of a unit whose procedures hold given code. -/
theorem exists_layout_of {top : Fragment} (holds : Procedure → Fragment → Prop) (ready : c.Ready)
    (all : ∀ p ∈ c.procedures, ∃ code, holds p code)
    (stores : ∀ p code, holds p code → c.Stores p code) (sound : top.Sound c.Callable)
    (short : (c.assemble (top ++ [Instruction.ret])).size < 0x80000000) : ∃ l : Layout,
      l.buffer = c.assemble (top ++ [Instruction.ret]) ∧
        l.main = ⟨c.libraryEnd, top ++ [Instruction.ret]⟩ ∧ l.holds = holds := by
  have spells := (spells_image ready.library ready.outside sound short).1
  obtain ⟨⟨rest, front⟩, right⟩ := spells_unit ready.library ready.outside sound short
  have held : ∀ target, (∃ p ∈ c.procedures, p.address = target) →
      ∃ p code, holds p code ∧ p.address = target := by
    rintro target ⟨p, member, same⟩
    obtain ⟨code, held⟩ := all p member
    exact ⟨p, code, held, same⟩
  refine ⟨⟨c.assemble (top ++ [Instruction.ret]), ⟨c.libraryEnd, top ++ [Instruction.ret]⟩,
    holds, ?_, ?_, ?_⟩, rfl, rfl, rfl⟩
  · exact ⟨_, front.head⟩
  · have known : top.Sound fun target => ∃ p code, holds p code ∧ p.address = target :=
      sound.mono fun target callable => held target (callable.defined ready.outside)
    refine ⟨right, known.followed rfl ⟨rfl, nofun⟩, fun exits => ?_⟩
    exact Fragment.not_exits_ret
      (exits.of_append_straight sound.closed (Fragment.straight_single rfl)).2
  · intro p code given
    obtain ⟨stop, less, more, region⟩ := stores p code given
    obtain ⟨parts, start⟩ := image_region top region
    rw [parts, ← start] at spells
    have right := spells.left.right
    rw [Nat.zero_add, ← start] at right
    exact ⟨right, region.sound.mono held, region.sealed⟩

theorem exists_layout {top : Fragment} (ready : c.Ready)
    (shelf : Shelf allowed c.hosts c.procedures c.library) (sound : top.Sound c.Callable)
    (short : (c.assemble (top ++ [Instruction.ret])).size < 0x80000000) :
    ∃ l, Layout.Of allowed c top l := by
  obtain ⟨l, buffer, main, holds⟩ :=
    exists_layout_of (c.Holds allowed) ready (fun _ => holds_of_mem shelf)
      (fun p code held => by
        obtain ⟨m, ⟨-, -, -, after, less, more, -, region⟩, rfl⟩ := held
        exact ⟨_, less, more, region⟩) sound short
  exact ⟨l, buffer, main, holds⟩

/-- The code of a unit that compiles is accepted by every machine. -/
theorem Ready.loads {after : Compiler} {program : Program} {code : Bytecode} (ready : c.Ready)
    (compiled : c.compile program = .ok (code, after)) (short : code.size < 0x80000000)
    (m : Machine) : m.load code = .ok { m with code, ip := 0 } := by
  obtain ⟨top, derivation, rfl⟩ := compile_ok compiled
  have accepted := ((ready.compile compiled).organised (derivation.sound ready.tidy) short).accepted
  rw [Machine.load]
  split
  · rw [accepted]
  · rfl

end Compiler

end Primer
