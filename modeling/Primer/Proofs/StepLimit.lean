import Primer.Proofs.ResourceBounds

/-!
The limit on the steps of a run only cuts it short. Instructions do not read the limit, so two
machines that differ in it alone take the same turns until one of them has used its steps up. A
limited run ends, and a run that ends otherwise than by the limit ends the same way under every
larger one.
-/

set_option autoImplicit false
set_option relaxedAutoImplicit false

namespace Primer

/-- The machine with another limit on its steps. -/
def Machine.withLimit (limit : Option Nat) (m : Machine) : Machine :=
  { m with config := { m.config with maxSteps := limit } }

def Effect.withLimit (limit : Option Nat) : Effect → Effect
  | .next m => .next (m.withLimit limit)
  | .halt m => .halt (m.withLimit limit)
  | .request call m => .request call (m.withLimit limit)

def Progress.withLimit (limit : Option Nat) : Progress → Progress
  | .running m => .running (m.withLimit limit)
  | .halted m => .halted (m.withLimit limit)
  | .failed error m => .failed error (m.withLimit limit)
  | .calling call m => .calling call (m.withLimit limit)

def Finished.withLimit (limit : Option Nat) (finished : Finished) : Finished :=
  ⟨finished.machine.withLimit limit, finished.error⟩

/-- The run used its steps up. -/
def Finished.CutShort (finished : Finished) : Prop :=
  ∃ limit calls, finished.error = some (.runtime (.stepLimit limit) calls)

namespace Machine

variable {limit : Option Nat}

theorem bind_withLimit {α : Type} {first : Except Trouble α}
    {next next' : α → Except Trouble Effect}
    (same : ∀ a, next' a = (next a).map (Effect.withLimit limit)) :
    (first >>= next') = (first >>= next).map (Effect.withLimit limit) := by
  cases first with
  | error trouble => rfl
  | ok a => exact same a

theorem ite_withLimit {c : Prop} [Decidable c] {yes no yes' no' : Except Trouble Effect}
    (same : yes' = yes.map (Effect.withLimit limit))
    (other : no' = no.map (Effect.withLimit limit)) :
    (if c then yes' else no') = (if c then yes else no).map (Effect.withLimit limit) := by
  split
  · exact same
  · exact other

theorem jump_withLimit (m : Machine) (target : Nat) :
    ((m.withLimit limit).jump target >>= fun landed => .ok (.next landed)) =
      (m.jump target >>= fun landed => .ok (.next landed)).map (Effect.withLimit limit) := by
  by_cases inside : target ≤ m.code.size
  · rw [jump, jump, if_pos inside, if_pos (show target ≤ (m.withLimit limit).code.size from inside)]
    rfl
  · rw [jump, jump, if_neg inside,
      if_neg (show ¬ target ≤ (m.withLimit limit).code.size from inside)]
    rfl

variable (limit) in
/-- Instructions do not read the limit. -/
theorem execute_withLimit (hosts : String → Option Signature) (m : Machine) (i : Instruction) :
    (m.withLimit limit).execute hosts i = (m.execute hosts i).map (Effect.withLimit limit) := by
  cases i with
  | push value | free slot => rfl
  | jump target => exact jump_withLimit m target
  | jumpIf target =>
    refine bind_withLimit fun popped => ?_
    obtain ⟨taken, stack⟩ := popped
    cases taken with
    | true => exact jump_withLimit { m with stack } target
    | false => rfl
  | pop | dup | equal | notEqual | store slot | invert | negate | makeList count =>
    exact bind_withLimit fun _ => rfl
  | arith op | order op => exact bind_withLimit fun _ => bind_withLimit fun _ => rfl
  | load slot =>
    have same : (m.withLimit limit).locals.get? slot = m.locals.get? slot := rfl
    rw [execute, execute, same]
    cases m.locals.get? slot with
    | none => rfl
    | some value => rfl
  | convert target =>
    refine bind_withLimit fun popped => ite_withLimit ?_ rfl
    cases popped.1.convert target with
    | error failure => rfl
    | ok value => rfl
  | call target =>
    exact ite_withLimit rfl (jump_withLimit { m with calls := m.ip :: m.calls } target)
  | ret =>
    obtain ⟨config, code, ip, stack, calls, locals, steps⟩ := m
    cases calls with
    | nil => rfl
    | cons address calls => exact ite_withLimit rfl rfl
  | callHost name =>
    simp only [execute]
    cases hosts name with
    | none => rfl
    | some signature => exact bind_withLimit fun _ => bind_withLimit fun _ => rfl
  | getItem expected =>
    exact bind_withLimit fun _ => bind_withLimit fun _ => bind_withLimit fun _ =>
      ite_withLimit rfl rfl
  | setItem =>
    exact bind_withLimit fun _ => bind_withLimit fun _ => bind_withLimit fun _ =>
      bind_withLimit fun _ => rfl

theorem exceeded?_eq_stepLimit {m : Machine} {k : Nat} :
    m.exceeded? = some (.stepLimit k) ↔ m.config.maxSteps = some k ∧ k < m.steps := by
  unfold exceeded?
  cases m.config.maxSteps with
  | none =>
    simp only
    split <;> simp
  | some n =>
    simp only
    split
    · simp only [Option.some.injEq, Mishap.stepLimit.injEq]
      omega
    · split <;> simp <;> omega

/-- The limit leaves the machine a step, if it has to take one. -/
def Allows (limit : Option Nat) (m : Machine) : Prop :=
  m.ip < m.code.size → ∀ k ∈ limit, m.steps < k

theorem step_withLimit {hosts : String → Option Signature} {m : Machine}
    (own : m.Allows m.config.maxSteps) (other : m.Allows limit) :
    (m.withLimit limit).step hosts = (m.step hosts).withLimit limit := by
  rw [step, step]
  by_cases inside : m.ip < m.code.size
  · rw [if_pos inside,
      if_pos (show (m.withLimit limit).ip < (m.withLimit limit).code.size from inside)]
    have same : exceeded? { m.withLimit limit with steps := (m.withLimit limit).steps + 1 } =
        exceeded? { m with steps := m.steps + 1 } :=
      (exceeded?_of_left (m := { m.withLimit limit with steps := m.steps + 1 })
        (other inside)).trans
        (exceeded?_of_left (m := { m with steps := m.steps + 1 }) (own inside)).symm
    simp only [same]
    cases exceeded? { m with steps := m.steps + 1 } with
    | some mishap => rfl
    | none =>
      have read : (m.withLimit limit).code.decodeAt (m.withLimit limit).ip = m.code.decodeAt m.ip :=
        rfl
      simp only [read]
      cases m.code.decodeAt m.ip with
      | error fault => rfl
      | ok found =>
        obtain ⟨i, behind⟩ := found
        have done : execute hosts
            { m.withLimit limit with ip := behind, steps := (m.withLimit limit).steps + 1 } i = _ :=
          execute_withLimit limit hosts { m with ip := behind, steps := m.steps + 1 } i
        simp only [done]
        rcases execute hosts { m with ip := behind, steps := m.steps + 1 } i with
          (fault | mishap) | (after | after | ⟨call, after⟩)
        all_goals rfl
  · rw [if_neg inside,
      if_neg (show ¬ (m.withLimit limit).ip < (m.withLimit limit).code.size from inside)]
    rfl

theorem resume_withLimit (waiting : Machine) (call : HostCall) (reply : HostReply) :
    (waiting.withLimit limit).resume call reply = (waiting.resume call reply).withLimit limit := by
  unfold resume
  cases reply with
  | error reason => rfl
  | ok answer =>
    simp only
    split
    · rfl
    · cases answer with
      | none => rfl
      | some value =>
        simp only
        split
        · rfl
        · rfl

end Machine

variable {σ : Type} {hosts : HostTable (StateM σ)}

namespace Machine

variable {limit : Option Nat} {m next last : Machine} {w w' : σ} {count n : Nat}

/-- Machines that differ in the limit take the same turn, as long as both limits leave it to
them. -/
theorem turn_withLimit (own : m.Allows m.config.maxSteps) (other : m.Allows limit) (w : σ) :
    (m.withLimit limit).turn hosts w =
      (m.turn hosts w).map (Sum.map (withLimit limit) (Finished.withLimit limit)) id := by
  rw [turn, turn, step_withLimit own other]
  cases m.step hosts.signature? with
  | running after => rfl
  | halted last => rfl
  | failed error last => rfl
  | calling call waiting =>
    simp only [Progress.withLimit]
    rcases (hosts.call? call.name call.arguments).getD (pure (.ok none)) w with ⟨reply, w₁⟩
    simp only [resume_withLimit]
    cases waiting.resume call reply with
    | _ => rfl

/-- A turn that goes on is a step that the limit leaves. -/
theorem turn_left (turns : m.turn hosts w = (.inl next, w')) :
    (∀ k ∈ m.config.maxSteps, m.steps < k) ∧ next.steps = m.steps + 1 := by
  obtain ⟨i, behind, -, carried⟩ := turn_carried turns
  exact ⟨(exceeded?_none (turn_free turns)).2, carried.steps⟩

theorem Reaches.withLimit (reaches : Reaches hosts count m w last w')
    (left : ∀ k ∈ limit, m.steps + count ≤ k) :
    Reaches hosts count (m.withLimit limit) w (last.withLimit limit) w' := by
  induction reaches with
  | refl m w => exact .refl _ w
  | @turn count m next last w w₁ w₂ turns rest ih =>
    obtain ⟨own, counted⟩ := turn_left turns
    have other : m.Allows limit := by
      intro _ k member
      have enough := left k member
      omega
    have turned : (m.withLimit limit).turn hosts w = _ := turn_withLimit (fun _ => own) other w
    rw [turns] at turned
    apply Reaches.turn turned
    apply ih
    intro k member
    have enough := left k member
    omega

/-- The steps of a run stay within its limit. -/
theorem Reaches.steps_le (reaches : Reaches hosts count m w last w')
    (early : ∀ k ∈ m.config.maxSteps, m.steps ≤ k) :
    ∀ k ∈ last.config.maxSteps, last.steps ≤ k := by
  induction reaches with
  | refl m w => exact early
  | turn turns rest ih =>
    obtain ⟨own, counted⟩ := turn_left turns
    obtain ⟨i, behind, -, carried⟩ := turn_carried turns
    apply ih
    rw [carried.config, counted]
    exact own

/-- A run with a limit ends. -/
theorem runFrom_limited {fuel : Nat} (limited : m.config.maxSteps = some n) (early : m.steps ≤ n)
    (enough : n < m.steps + fuel) (w : σ) :
    ∃ finished w', m.runFrom hosts fuel w = (some finished, w') := by
  induction fuel generalizing m w with
  | zero => omega
  | succ fuel ih =>
    rw [runFrom_succ]
    rcases turns : m.turn hosts w with ⟨next | finished, w₁⟩
    · obtain ⟨own, counted⟩ := turn_left turns
      obtain ⟨i, behind, -, carried⟩ := turn_carried turns
      have left := own n limited
      exact ih (carried.config ▸ limited) (by omega) (by omega) w₁
    · exact ⟨finished, w₁, rfl⟩

/-- Without a step left, the next instruction is not carried out. -/
theorem turn_used (inside : m.ip < m.code.size) (used : m.config.maxSteps = some m.steps) :
    m.turn hosts w = (.inr ⟨abandon { m with steps := m.steps + 1 },
      some (.runtime (.stepLimit m.steps) [])⟩, w) := by
  apply turn_exceeded inside
  exact exceeded?_eq_stepLimit.mpr ⟨used, Nat.lt_succ_self _⟩

/-- The last turn of a run uses its steps up exactly if an instruction is left and no step. -/
theorem turn_cutShort {finished : Finished} (early : ∀ k ∈ m.config.maxSteps, m.steps ≤ k)
    (ended : m.turn hosts w = (.inr finished, w')) :
    finished.CutShort ↔ m.ip < m.code.size ∧ m.config.maxSteps = some m.steps := by
  constructor
  · rintro ⟨k, calls, failed⟩
    have inside : m.ip < m.code.size := by
      apply Nat.lt_of_not_le
      intro outside
      rw [turn_beyond outside] at ended
      cases ended
      cases failed
    rcases turn_mishap ended failed with ⟨exceeds, -⟩ | ⟨later, -⟩
    · obtain ⟨limited, late⟩ := exceeded?_eq_stepLimit.mp exceeds
      have left := early k limited
      have same : m.steps = k := by
        simp only at late
        omega
      exact ⟨inside, same ▸ limited⟩
    · cases later
  · rintro ⟨inside, limited⟩
    rw [turn_used inside limited] at ended
    cases ended
    exact ⟨m.steps, [], rfl⟩

theorem allows_of_uncut {finished : Finished} (early : ∀ k ∈ m.config.maxSteps, m.steps ≤ k)
    (ended : m.turn hosts w = (.inr finished, w')) (uncut : ¬ finished.CutShort) :
    m.Allows m.config.maxSteps := by
  intro inside k limited
  apply Nat.lt_of_le_of_ne (early k limited)
  intro used
  exact uncut ((turn_cutShort early ended).mpr ⟨inside, used ▸ limited⟩)

/-- The machine is about to carry out an instruction. -/
def Begins (m : Machine) : Prop :=
  m.ip < m.code.size ∧ exceeded? { m with steps := m.steps + 1 } = none

/-- How far a run with a limit has come. -/
theorem Reaches.within
    (reaches : Reaches hosts count { m.withLimit (some n) with steps := 0 } w last w') :
    last.config.maxSteps = some n ∧ last.steps = count ∧ count ≤ n := by
  have limited : last.config.maxSteps = some n := by
    rw [reaches.config]
    rfl
  have counted : last.steps = count := by
    rw [reaches.steps]
    exact Nat.zero_add count
  have early := reaches.steps_le fun k _ => Nat.zero_le k
  exact ⟨limited, counted, counted ▸ early n limited⟩

theorem Reaches.count_lt
    (reaches : Reaches hosts count { m.withLimit (some n) with steps := 0 } w last w')
    (begins : last.Begins) : count < n := by
  obtain ⟨limited, counted, -⟩ := reaches.within
  have left := (exceeded?_none begins.2).2 n limited
  simp only at left
  omega

/-- The run with a larger limit, or with none, takes the same way. -/
theorem Reaches.enlarged {more : Option Nat} (larger : ∀ k ∈ more, n ≤ k)
    (reaches : Reaches hosts count { m.withLimit (some n) with steps := 0 } w last w') :
    Reaches hosts count { m.withLimit more with steps := 0 } w (last.withLimit more) w' := by
  apply reaches.withLimit
  intro k member
  have enough := larger k member
  have few := reaches.within.2.2
  simp only
  omega

/-- A last turn that does not use the steps up is the same under a larger limit. -/
theorem turn_enlarged {more : Option Nat} {finished : Finished} (larger : ∀ k ∈ more, n ≤ k)
    (limited : m.config.maxSteps = some n) (early : ∀ k ∈ m.config.maxSteps, m.steps ≤ k)
    (ended : m.turn hosts w = (.inr finished, w')) (uncut : ¬ finished.CutShort) :
    (m.withLimit more).turn hosts w = (.inr (finished.withLimit more), w') := by
  have own := allows_of_uncut early ended uncut
  have other : m.Allows more := by
    intro inside k member
    exact Nat.lt_of_lt_of_le (own inside n limited) (larger k member)
  have turned : (m.withLimit more).turn hosts w = _ := turn_withLimit own other w
  rw [ended] at turned
  exact turned

/-- Where `n` instructions lead to another one, a run with the limit `n` is cut short. -/
theorem Reaches.cut {more : Option Nat}
    (reaches : Reaches hosts n { m.withLimit more with steps := 0 } w last w')
    (inside : last.ip < last.code.size) : ∃ finished, finished.CutShort ∧
      runFrom hosts (n + 1) { m.withLimit (some n) with steps := 0 } w = (some finished, w') := by
  have path : Reaches hosts n { m.withLimit (some n) with steps := 0 } w
      (last.withLimit (some n)) w' := by
    apply reaches.withLimit
    intro k member
    cases member
    simp only
    omega
  have used : (last.withLimit (some n)).steps = n := path.within.2.1
  have final := path.run_ends (turn_used inside (congrArg some used.symm)) (Nat.lt_succ_self n)
  exact ⟨_, ⟨_, _, rfl⟩, final⟩

/-- The limit on the steps only cuts runs short. A run with the limit `n` ends, and has carried out
at most `n` instructions. If it does not end for want of steps, then every run with a larger limit,
or with none, ends the same way. And it ends for want of steps exactly if `n` instructions lead to
another one. -/
theorem run_limited (m : Machine) (hosts : HostTable (StateM σ)) (w : σ) (n : Nat) :
    ∃ finished w',
      (∀ fuel, n < fuel → (m.withLimit (some n)).run hosts fuel w = (some finished, w')) ∧
      (∀ count last w₁, Reaches hosts count { m.withLimit (some n) with steps := 0 } w last w₁ →
        last.Begins → count < n) ∧
      ∀ more : Option Nat, (∀ k ∈ more, n ≤ k) →
        (¬ finished.CutShort → ∀ fuel, n < fuel →
          (m.withLimit more).run hosts fuel w = (some (finished.withLimit more), w')) ∧
        (finished.CutShort ↔ ∃ last w₁,
          Reaches hosts n { m.withLimit more with steps := 0 } w last w₁ ∧
            last.ip < last.code.size) := by
  have ends : ∃ finished w', runFrom hosts (n + 1) { m.withLimit (some n) with steps := 0 } w =
      (some finished, w') := runFrom_limited rfl (Nat.zero_le n) (by simp) w
  obtain ⟨finished, w', done⟩ := ends
  obtain ⟨count, last, w₁, reaches, ended⟩ := runFrom_finished done
  obtain ⟨limited, counted, few⟩ := reaches.within
  have early : ∀ k ∈ last.config.maxSteps, last.steps ≤ k :=
    reaches.steps_le fun k _ => Nat.zero_le k
  refine ⟨finished, w', fun fuel enough => reaches.run_ends ended (by omega),
    fun count last w₁ reaches begins => reaches.count_lt begins, fun more larger => ⟨?_, ?_, ?_⟩⟩
  · intro uncut fuel enough
    have final := turn_enlarged larger limited early ended uncut
    exact (reaches.enlarged larger).run_ends final (by omega)
  · intro cut
    obtain ⟨inside, used⟩ := (turn_cutShort early ended).mp cut
    have all : n = count := by
      rw [limited, counted] at used
      exact Option.some.inj used
    exact ⟨last.withLimit more, w₁, all ▸ reaches.enlarged larger, inside⟩
  · rintro ⟨last', w₂, reaches', inside⟩
    obtain ⟨finished', cut, done'⟩ := reaches'.cut inside
    rw [done] at done'
    cases done'
    exact cut

/-- Two instructions. -/
def twice : Machine where
  code := .ofList [2, 2, 1, 2, 2, 1]

/-- Two instructions take two steps, and one step is not enough for them. -/
theorem run_limited_twice :
    (∃ finished w', ¬ finished.CutShort ∧ ∀ fuel, 2 < fuel →
      (twice.withLimit (some 2)).run (μ := StateM Nat) {} fuel 7 = (some finished, w') ∧
        (twice.withLimit none).run (μ := StateM Nat) {} fuel 7 = (some (finished.withLimit none),
          w')) ∧
    ∃ finished w', finished.CutShort ∧ ∀ fuel, 1 < fuel →
      (twice.withLimit (some 1)).run (μ := StateM Nat) {} fuel 7 = (some finished, w') := by
  constructor
  · obtain ⟨finished, w', done, -, larger⟩ := run_limited twice (σ := Nat) {} 7 2
    have smooth : ((twice.withLimit (some 2)).run (μ := StateM Nat) {} 3 7).1.map
        (fun finished => finished.error.isNone) = some true := by decide +kernel
    rw [done 3 (by decide)] at smooth
    have uncut : ¬ finished.CutShort := by
      rintro ⟨limit, calls, failed⟩
      simp [failed] at smooth
    have ends := (larger none (by simp)).1 uncut
    exact ⟨finished, w', uncut, fun fuel enough => ⟨done fuel enough, ends fuel enough⟩⟩
  · obtain ⟨finished, w', done, -, larger⟩ := run_limited twice (σ := Nat) {} 7 1
    obtain ⟨last, w₁, reaches, inside⟩ := exists_of_reached?
      (fun m _ => decide (m.ip < m.code.size))
      (by decide +kernel : (reached? (σ := Nat) {} 1 twice 7).map _ = some true)
    have cut := (larger none (by simp)).2.mpr ⟨last, w₁, reaches, of_decide_eq_true inside⟩
    exact ⟨finished, w', cut, done⟩

end Machine

end Primer
