import Primer.Proofs.Compilation.Lending
import Primer.Proofs.Execution.Exchange

/-!
The evaluation of arguments. In front of a call stand the codes of its arguments, one after another.
Each of them is entered through its start only and leaves one value above the stack that it found,
so whenever an activation has come to such a call, it has evaluated the arguments one after another.
-/

set_option autoImplicit false
set_option relaxedAutoImplicit false

namespace Primer

variable {σ : Type} {hosts : HostTable (StateM σ)}

namespace Machine

/-- A run comes from a machine to another. The calls that were active at the start are active all
the time, and whenever no others are, until the end is reached, control is inside some code. -/
inductive Stays (hosts : HostTable (StateM σ)) (outer : List Machine) (inside : Nat → Prop)
    (first : Machine) (w : σ) : Machine → List Machine → σ → Prop
  | start : Stays hosts outer inside first w first outer w
  | turn {m next : Machine} {callers : List Machine} {w₁ w₂ : σ}
      (before : Stays hosts outer inside first w m callers w₁) (own : callers = outer → inside m.ip)
      (turns : m.turn hosts w₁ = (.inl next, w₂)) (active : outer <:+ m.callersAfter callers) :
      Stays hosts outer inside first w next (m.callersAfter callers) w₂

variable {outer callers : List Machine} {inside : Nat → Prop} {first m : Machine} {w w₁ : σ}

theorem Stays.reaches (stays : Stays hosts outer inside first w m callers w₁) :
    ∃ count, Reaches hosts count first w m w₁ := by
  induction stays with
  | start => exact ⟨0, .refl _ _⟩
  | turn _ _ turns _ ih =>
    obtain ⟨count, reaches⟩ := ih
    exact ⟨count + 1, reaches.trans (.turn turns (.refl _ _))⟩

/-- No time passes between a machine and itself. -/
theorem Stays.eq_of_same (stays : Stays hosts outer inside m w m callers w₁) : w₁ = w := by
  obtain ⟨count, reaches⟩ := stays.reaches
  have counted := reaches.steps
  obtain rfl : count = 0 := by omega
  cases reaches
  rfl

/-- Code is evaluated in an activation: from its start control comes to its end, without leaving it
but for calls, and the stack has one more value. -/
structure Evaluates (hosts : HostTable (StateM σ)) (outer : List Machine) (place stop : Nat)
    (m : Machine) (w : σ) (value : Value) (m' : Machine) (w' : σ) : Prop where
  begins : m.ip = place
  stays : Stays hosts outer (fun ip => place ≤ ip ∧ ip < stop) m w m' outer w'
  ends : m'.ip = stop
  stack : m'.stack = value :: m.stack

/-- Pieces of code that stand one after another from a place on are evaluated in turn. -/
inductive Evaluated (hosts : HostTable (StateM σ)) (outer : List Machine) :
    Nat → List Fragment → List Value → Machine → σ → Machine → σ → Prop
  | nil {place : Nat} {m : Machine} {w : σ} (here : m.ip = place) :
      Evaluated hosts outer place [] [] m w m w
  | cons {place : Nat} {part : Fragment} {parts : List Fragment} {value : Value}
      {values : List Value} {m m₁ m₂ : Machine} {w w₁ w₂ : σ}
      (first : Evaluates hosts outer place (place + part.size) m w value m₁ w₁)
      (rest : Evaluated hosts outer (place + part.size) parts values m₁ w₁ m₂ w₂) :
      Evaluated hosts outer place (part :: parts) (value :: values) m w m₂ w₂

variable {place : Nat} {parts : List Fragment} {values : List Value} {m' : Machine} {w' : σ}

theorem Evaluated.length (evaluated : Evaluated hosts outer place parts values m w m' w') :
    values.length = parts.length := by
  induction evaluated with
  | nil => rfl
  | cons _ _ ih => rw [List.length_cons, List.length_cons, ih]

/-- The value that was found last lies on top. -/
theorem Evaluated.stack (evaluated : Evaluated hosts outer place parts values m w m' w') :
    m'.stack = values.reverse ++ m.stack := by
  induction evaluated with
  | nil => rfl
  | cons first _ ih =>
    rw [ih, first.stack, List.reverse_cons, List.append_assoc, List.singleton_append]

end Machine

namespace Fragment

variable {whole inner first second : Fragment} {distance offset after : Nat} {i : Instruction}

/-- The whole shows the inner code at a distance. -/
def Shows (whole inner : Fragment) (distance : Nat) : Prop :=
  ∀ k < size inner, at? whole (distance + k) = (at? inner k).map (Instruction.shift distance)

theorem Encloses.shows (encloses : Encloses whole inner distance) : Shows whole inner distance := by
  intro k within
  obtain ⟨before, after, rfl, rfl, -⟩ := encloses
  rw [List.append_assoc, at?_append_right, at?_append_left (by simpa using within), at?_shift]

theorem Shows.left (shows : Shows whole (first ++ second) distance) :
    Shows whole first distance := by
  intro k within
  rw [shows k (by rw [size_append]; omega), at?_append_left within]

theorem Shows.right (shows : Shows whole (first ++ shift second (size first)) distance) :
    Shows whole second (distance + size first) := by
  intro k within
  have found := shows (size first + k) (by rw [size_append, size_shift]; omega)
  rw [at?_append_right, at?_shift, Option.map_map, ← Nat.add_assoc] at found
  rw [found]
  congr 1
  funext i
  exact (Instruction.shift_shift ..).trans (by rw [Nat.add_comm])

/-- Control comes into the inner code through its start only. -/
theorem Encloses.enters (encloses : Encloses whole inner distance)
    (found : Fragment.at? whole offset = some i)
    (outside : ¬(distance ≤ offset ∧ offset < distance + size inner))
    (leads : i.goesOn ∧ after = offset + i.size ∨ i.jump? = some after)
    (within : distance ≤ after) (below : after < distance + size inner) : after = distance := by
  have positive := i.size_pos
  obtain ⟨before, behind, rfl, rfl, around⟩ := encloses
  rw [List.append_assoc] at found
  have member : i ∈ before ++ behind ∧
      (offset + i.size ≤ size before ∨ size before + size inner ≤ offset) := by
    by_cases early : offset < size before
    · rw [at?_append_left early] at found
      exact ⟨List.mem_append_left _ (mem_of_at? found), .inl (lt_size_of_at? found)⟩
    · obtain ⟨rest, rfl⟩ :=
        Nat.exists_eq_add_of_le (show size before + size inner ≤ offset by omega)
      rw [Nat.add_assoc, at?_append_right, ← size_shift inner (size before),
        at?_append_right] at found
      exact ⟨List.mem_append_right _ (mem_of_at? found), .inr (by omega)⟩
  rcases leads with ⟨-, rfl⟩ | jumps
  · omega
  · have aims := around i member.1 after jumps
    unfold Around at aims
    omega

end Fragment

namespace Layout

open Machine Fragment

/-- How far the codes of arguments, which stand one after another from a place on, have been
evaluated since a machine of the activation was at their start. The machine of the activation is the
current one, or it waits for a call that it has made. -/
inductive Trail (hosts : HostTable (StateM σ)) (t : Trade) (outer : List Machine) (s m : Machine)
    (callers : List Machine) (w₁ : σ) : Nat → List Fragment → Machine → σ → Prop
  | ready {place : Nat} {w : σ} (here : s.ip = place)
      (stays : Stays hosts outer (· = place) s w m callers w₁) :
      Trail hosts t outer s m callers w₁ place [] s w
  | inside {place k : Nat} {part : Fragment} {more : List Fragment} {first : Machine} {w : σ}
      {values : List Value} {note : Nat → Nat} (begins : first.ip = place) (here : s.ip = place + k)
      (within : k < part.size)
      (stays :
        Stays hosts outer (fun ip => place ≤ ip ∧ ip < place + part.size) first w m callers w₁)
      (one : note part.size = 1) (marks : part.Marks t.heights note 0)
      (stack : s.stack = values ++ first.stack) (count : values.length = note k) :
      Trail hosts t outer s m callers w₁ place (part :: more) first w
  | past {place : Nat} {part : Fragment} {more : List Fragment} {value : Value}
      {first second : Machine}
      {w w' : σ}
      (evaluates : Evaluates hosts outer place (place + part.size) first w value second w')
      (rest : Trail hosts t outer s m callers w₁ (place + part.size) more second w') :
      Trail hosts t outer s m callers w₁ place (part :: more) first w

namespace Trail

variable {t : Trade} {outer callers : List Machine} {s m next first : Machine} {w w₁ w₂ : σ}
  {place : Nat} {parts : List Fragment}

/-- While the activation waits, or makes a call, nothing more is evaluated. -/
theorem wait (trail : Trail hosts t outer s m callers w₁ place parts first w)
    (own : callers = outer → m = s) (turns : m.turn hosts w₁ = (.inl next, w₂))
    (active : outer <:+ m.callersAfter callers) :
    Trail hosts t outer s next (m.callersAfter callers) w₂ place parts first w := by
  induction trail with
  | ready here stays => exact .ready here (stays.turn (fun same => own same ▸ here) turns active)
  | inside begins here within stays one marks stack count =>
    refine .inside begins here within (stays.turn (fun same => ?_) turns active) one
      marks stack count
    rw [own same, here]
    exact ⟨Nat.le_add_right _ _, Nat.add_lt_add_left within _⟩
  | past evaluates _ ih => exact .past evaluates ih

theorem size_pos {part : Fragment} (annotated : part.Annotated t.heights 0 1) : 0 < part.size := by
  obtain ⟨note, zero, one, -⟩ := annotated.noted
  refine Nat.pos_of_ne_zero fun empty => ?_
  rw [empty, zero] at one
  cases one

/-- At the start nothing has been evaluated. -/
theorem start (each : ∀ part ∈ parts, part.Annotated t.heights 0 1) (here : m.ip = place) :
    Trail hosts t outer m m outer w place parts m w := by
  cases parts with
  | nil => exact .ready here .start
  | cons part more =>
    have annotated := each part List.mem_cons_self
    obtain ⟨note, zero, one, marks⟩ := annotated.noted
    exact .inside (k := 0) here here (size_pos annotated) .start one marks
      (List.nil_append _).symm zero.symm

/-- An instruction of the activation leads on, if not behind the call. -/
theorem advance {r : Routine} {distance offset after target : Nat} {i : Instruction}
    (trail : Trail hosts t outer s next outer w₂ (r.base + distance) parts first w)
    (each : ∀ part ∈ parts, part.Annotated t.heights 0 1)
    (shows : r.code.Shows (sequence (parts ++ [[Instruction.call target]])) distance)
    (here : s.ip = r.base + offset) (found : r.code.at? offset = some i)
    (lands : next.ip = r.base + after)
    (leads : i.goesOn ∧ after = offset + i.size ∨ i.jump? = some after)
    (below : after < distance + size (sequence (parts ++ [[Instruction.call target]])))
    (exchange : ∀ takes gives, t.Moves i takes gives → takes ≤ s.stack.length →
      ∃ given : List Value, given.length = gives ∧ next.stack = given ++ s.stack.drop takes) :
    Trail hosts t outer next next outer w₂ (r.base + distance) parts first w := by
  induction parts generalizing distance first w with
  | nil =>
    cases trail with
    | ready here' =>
      obtain rfl : offset = distance := by omega
      have last := shows 0 (Fragment.size_pos (by simp))
      rw [Nat.add_zero, found] at last
      cases last
      rcases leads with ⟨-, rfl⟩ | jumps
      · exact absurd below (Nat.lt_irrefl _)
      · cases jumps
  | cons part more ih =>
    have others (other : Fragment) (member : other ∈ more) : other.Annotated t.heights 0 1 :=
      each other (List.mem_cons_of_mem _ member)
    rw [List.cons_append, sequence_cons] at shows below
    cases trail with
    | past evaluates rest =>
      refine .past evaluates ?_
      rw [Nat.add_assoc] at rest ⊢
      rw [size_append, size_shift, ← Nat.add_assoc] at below
      exact ih rest others shows.right below
    | @inside _ k _ _ _ _ values note begins here' within stays one marks stack count =>
      obtain rfl : offset = distance + k := by omega
      have shown := shows.left k within
      rw [found] at shown
      obtain ⟨j, there, rfl⟩ := Option.map_eq_some_iff.mp shown.symm
      have fits := lt_size_of_at? there
      have notes := marks k j there
      rw [Nat.zero_add] at notes
      -- The code of an argument is closed: control comes to a place inside it or to its end.
      obtain ⟨k', rfl, upTo, changes⟩ : ∃ k', after = distance + k' ∧ k' ≤ part.size ∧
          t.heights.changes j (note k) (note k') := by
        rcases leads with ⟨goesOn, rfl⟩ | jumps
        · rw [Instruction.goesOn_shift] at goesOn
          exact ⟨k + j.size, by rw [Instruction.size_shift, Nat.add_assoc], fits, notes.next goesOn⟩
        · rw [Instruction.jump?_shift, Option.map_eq_some_iff] at jumps
          obtain ⟨k', jumps, rfl⟩ := jumps
          have closed := (each part List.mem_cons_self).closed
          exact ⟨k', Nat.add_comm .., (closed j (mem_of_at? there) k' jumps).le_size,
            notes.jump k' jumps⟩
      obtain ⟨takes, gives, moves, enough, sum⟩ := changes
      obtain ⟨given, traded, left⟩ := exchange takes gives (moves.shift distance)
        (by rw [stack, List.length_append]; omega)
      rw [stack] at left
      obtain ⟨above, stack', count'⟩ := exchanged count enough sum traded left
      have lands' : next.ip = r.base + distance + k' := by rw [lands, Nat.add_assoc]
      rcases Nat.lt_or_eq_of_le upTo with within' | rfl
      · exact .inside begins lands' within' stays one marks stack' count'
      · rw [one, List.length_eq_one_iff] at count'
        obtain ⟨value, rfl⟩ := count'
        exact .past ⟨begins, stays, lands', stack'⟩ (.start others lands')

/-- An activation that has come to the call has evaluated the arguments. -/
theorem evaluated (trail : Trail hosts t outer m m outer w₁ place parts first w)
    (here : m.ip = place + size (sequence parts)) :
    ∃ values, Evaluated hosts outer place parts values first w m w₁ := by
  induction parts generalizing place first w with
  | nil =>
    cases trail with
    | ready here' stays =>
      obtain rfl := stays.eq_of_same
      exact ⟨[], .nil here'⟩
  | cons part more ih =>
    rw [sequence_cons, size_append, size_shift] at here
    cases trail with
    | inside begins here' within => omega
    | past evaluates rest =>
      obtain ⟨values, evaluated⟩ := ih rest (by omega)
      exact ⟨_, .cons evaluates evaluated⟩

end Trail

/-- The stack is as high as is noted, and of every call whose arguments the activation is
evaluating, or has evaluated, it is known how far it has come and where it was when it began. -/
def Preparing (l : Layout) (hosts : HostTable (StateM σ)) (ground : List Value) (start : Machine)
    (w : σ) (m : Machine) (callers : List Machine) (w₁ : σ) : Claim := fun r outer s =>
  l.Level hosts ground r outer s ∧ ∀ back distance parts target offset,
    (∀ part ∈ parts, Fragment.Annotated (l.trade hosts back).heights part 0 1) →
    r.code.Encloses (sequence (parts ++ [[Instruction.call target]])) distance →
    s.ip = r.base + offset →
    distance ≤ offset → offset < distance + size (sequence (parts ++ [[Instruction.call target]])) →
    ∃ first w₀, Passes hosts start w first outer w₀ ∧
      Trail hosts (l.trade hosts back) outer s m callers w₁ (r.base + distance) parts first w₀

variable {l : Layout} {start m next : Machine} {callers : List Machine} {w w₁ w₂ : σ}
  {ground : List Value}

/-- Each turn keeps what is known of the arguments of the calls that are prepared. -/
theorem Levelled.leads_preparing (levelled : l.Levelled hosts)
    (passes : Passes hosts start w m callers w₁) (turns : m.turn hosts w₁ = (.inl next, w₂)) :
    Leads hosts l (l.Preparing hosts ground start w m callers w₁)
      (l.Preparing hosts ground start w next (m.callersAfter callers) w₂) m next callers := by
  have keeps := levelled.keeps ground
  have passed := passes.turn turns
  refine ⟨?_, ?_, ?_, ?_⟩
  · rintro r s outer inside ⟨level, preparing⟩
    refine ⟨level, fun back distance parts target offset each encloses here low high => ?_⟩
    obtain ⟨first, w₀, before, trail⟩ :=
      preparing back distance parts target offset each encloses here low high
    refine ⟨first, w₀, before, trail.wait (fun same => ?_) turns (suffix_callersAfter inside)⟩
    have longer := inside.length_le
    rw [same, List.length_cons] at longer
    exact absurd longer (Nat.not_succ_le_self _)
  · rintro r offset i after place stays lands leads ⟨level, preparing⟩
    refine ⟨keeps.moves place stays lands leads level, ?_⟩
    intro back distance parts target offset' each encloses here low high
    obtain rfl : after = offset' := by omega
    rw [place.callersAfter_eq stays leads] at passed ⊢
    by_cases inside : distance ≤ offset ∧
        offset < distance + size (sequence (parts ++ [[Instruction.call target]]))
    · obtain ⟨first, w₀, before, trail⟩ :=
        preparing back distance parts target offset each encloses place.here inside.1 inside.2
      have waited := trail.wait (fun _ => rfl) turns
        ((place.callersAfter_eq stays leads).symm ▸ List.suffix_rfl)
      rw [place.callersAfter_eq stays leads] at waited
      refine ⟨first, w₀, before,
        waited.advance each encloses.shows place.here place.found lands leads high ?_⟩
      intro takes gives moves enough
      exact turn_moves turns place.decoded (moves.shift r.base)
        ((isCall_shift i r.base).trans stays) enough
    · obtain rfl := encloses.enters place.found inside leads low high
      exact ⟨next, w₂, passed, .start each lands⟩
  · rintro r offset p code place held ⟨level, preparing⟩
    have entered : m.callersAfter callers = m :: callers := by
      rw [Machine.callersAfter, place.decoded]
      rfl
    rw [entered] at passed ⊢
    refine ⟨⟨level, ?_⟩, keeps.enters place held level, ?_⟩
    · intro back distance parts target offset' each encloses here low high
      obtain ⟨first, w₀, before, trail⟩ :=
        preparing back distance parts target offset' each encloses here low high
      have waited := trail.wait (fun _ => rfl) turns (by rw [entered]; exact List.suffix_cons _ _)
      rw [entered] at waited
      exact ⟨first, w₀, before, waited⟩
    · intro back distance parts target offset' each encloses here low high
      have called := place.called
      have begins : next.ip = p.address + offset' := here
      obtain rfl : distance = 0 := by omega
      exact ⟨next, w₂, passed, .start each called⟩
  · rintro r offset s outer p code offset' rfl member here found held ⟨level, preparing⟩ place lands
      ⟨level', -⟩
    have left : m.callersAfter (s :: outer) = outer := by
      rw [Machine.callersAfter, place.decoded]
      rfl
    rw [left] at passed ⊢
    refine ⟨keeps.returns member here found held level place lands level', ?_⟩
    intro back distance parts target after each encloses there low high
    obtain rfl : after = offset + (Instruction.call p.address).size := by omega
    by_cases inside : distance ≤ offset ∧
        offset < distance + size (sequence (parts ++ [[Instruction.call target]]))
    · obtain ⟨first, w₀, before, trail⟩ :=
        preparing back distance parts target offset each encloses here inside.1 inside.2
      have waited := trail.wait (fun same => absurd same (List.cons_ne_self s outer)) turns
        (left.symm ▸ List.suffix_rfl)
      rw [left] at waited
      refine ⟨first, w₀, before,
        waited.advance each encloses.shows here found lands (.inl ⟨rfl, rfl⟩) high ?_⟩
      -- The procedure has taken its arguments and left what it gives back.
      intro takes gives moves _
      obtain ⟨-, rfl, rfl⟩ := levelled.called held moves
      obtain ⟨floor, values, back', ⟨q, held', same, -, rfl, rfl⟩, stack, count⟩ :=
        level'.at_ret place.here place.found
      obtain rfl := levelled.unique _ _ _ _ held' held same
      exact ⟨values, count, (turn_stack turns place.decoded (.inr rfl)).trans stack⟩
    · obtain rfl := encloses.enters found inside (.inl ⟨rfl, rfl⟩) low high
      exact ⟨next, w₂, passed, .start each lands⟩

/-- What is known of the arguments of the calls that are prepared holds throughout a run. -/
theorem Levelled.preparing (levelled : l.Levelled hosts)
    (passes : Passes hosts start w m callers w₁)
    (buffer : start.code = l.buffer) (zero : start.ip = 0) (idle : start.calls = [])
    (enters : ∀ next w', start.turn hosts w = (.inl next, w') →
      l.Level hosts ground l.main [] next) :
    m.code = l.buffer ∧ (m = start ∧ callers = [] ∧ w₁ = w ∨
      ∃ r, l.Active (l.Preparing hosts ground start w m callers w₁) r m callers) := by
  refine Active.follows (fun passes turns => levelled.leads_preparing passes turns) passes buffer
    zero idle ?_
  intro next w' turns base
  refine ⟨enters next w' turns,
    fun back distance parts target offset each encloses here low high => ?_⟩
  have passed := Passes.start.turn turns
  obtain ⟨behind, entry⟩ := l.entry
  rw [← buffer, ← zero] at entry
  rw [callersAfter_plain entry rfl nofun] at passed
  obtain rfl : distance = 0 := by omega
  exact ⟨next, w', passed, .start each base⟩

end Layout

end Primer
