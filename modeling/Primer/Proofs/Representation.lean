import Mathlib.Data.List.Perm.Basic
import Primer.Proofs.Compilation.Exhaustion
import Primer.Proofs.Execution.Routine

/-!
The compiler between units. No block is open and no procedure is being compiled; every procedure
came out of a definition with all its types settled; and every slot that was ever handed out belongs
to one variable, parameter or result, or waits to be used again. So a unit fails for want of slots
only when all of them are in use.
-/

set_option autoImplicit false
set_option relaxedAutoImplicit false

namespace Primer

namespace SlotPool

/-- Besides being distinct, the slots in use and those given back are all that were handed out. -/
structure Exact (pool : SlotPool) (owned : List UInt8) : Prop extends pool.Accounts owned where
  kept : ∀ slot : UInt8, 0 < slot.toNat → slot.toNat < pool.next → slot ∈ owned ++ pool.freed

variable {pool after : SlotPool} {slot : UInt8} {owned : List UInt8}

theorem exact_new : Exact {} [] :=
  ⟨.new, fun _ positive below => absurd below (Nat.not_lt.mpr positive)⟩

theorem Exact.allocate (exact' : pool.Exact owned) (found : pool.allocate? = some (slot, after)) :
    after.Exact (slot :: owned) := by
  refine ⟨exact'.toAccounts.allocate found, fun other positive below => ?_⟩
  unfold allocate? at found
  cases waiting : pool.freed with
  | cons first rest =>
    simp only [waiting, Option.some.injEq, Prod.mk.injEq] at found
    obtain ⟨rfl, rfl⟩ := found
    have member := exact'.kept other positive below
    rw [waiting] at member
    exact List.perm_middle.mem_iff.mp member
  | nil =>
    by_cases room : pool.next < slotCount
    · simp only [waiting, room, if_true, Option.some.injEq, Prod.mk.injEq] at found
      obtain ⟨rfl, rfl⟩ := found
      have number : (UInt8.ofNat pool.next).toNat = pool.next := UInt8.toNat_ofNat_of_lt room
      by_cases last : other.toNat = pool.next
      · have same : other = UInt8.ofNat pool.next := UInt8.toNat.inj (last.trans number.symm)
        rw [same]
        exact List.mem_cons_self
      · have old : other.toNat < pool.next := Nat.lt_of_le_of_ne (Nat.le_of_lt_succ below) last
        have member := exact'.kept other positive old
        rw [waiting] at member
        exact List.mem_cons_of_mem _ member
    · simp [waiting, room] at found

theorem exact_lasting : Lasting Exact where
  perm exact' same := ⟨exact'.toAccounts.perm same, fun slot positive below =>
    (same.append_right _).mem_iff.mp (exact'.kept slot positive below)⟩
  allocate := .allocate
  release {pool slot owned} exact' := by
    refine ⟨exact'.toAccounts.release, fun other positive below => ?_⟩
    have member := exact'.kept other positive below
    simp only [release, List.cons_append, List.mem_cons, List.mem_append, List.not_mem_nil,
      or_false] at member ⊢
    rcases member with given | own | waiting
    · exact .inr (.inr given)
    · exact .inl own
    · exact .inr (.inl waiting)

/-- When no slot is left, all but that of the top-level result are in use. -/
theorem Exact.full (exact' : pool.Exact owned) (empty : pool.allocate? = none) :
    owned.Nodup ∧ ∀ slot, slot ∈ owned ↔ slot ≠ resultSlot := by
  unfold allocate? at empty
  cases waiting : pool.freed with
  | cons first rest => simp [waiting] at empty
  | nil =>
    have last : ¬pool.next < slotCount := by
      intro room
      simp [waiting, room] at empty
    have distinct := exact'.distinct
    have given := exact'.given
    have kept := exact'.kept
    simp only [waiting, List.append_nil] at distinct given kept
    refine ⟨distinct, fun slot => ⟨?_, fun other => ?_⟩⟩
    · rintro member rfl
      exact absurd (given _ member).1 (by decide)
    · have positive : 0 < slot.toNat := by
        refine Nat.pos_of_ne_zero fun zero => other ?_
        exact UInt8.toNat.inj zero
      exact kept slot positive (Nat.lt_of_lt_of_le slot.toNat_lt (Nat.not_lt.mp last))

end SlotPool

namespace Compile

theorem nodup_of_duplicate? {seen names : List String} (single : duplicate? seen names = none) :
    names.Nodup ∧ ∀ name ∈ names, name ∉ seen := by
  induction names generalizing seen with
  | nil => simp
  | cons name more ih =>
    rw [duplicate?] at single
    by_cases twice : seen.contains name
    · rw [if_pos twice] at single
      cases single
    · rw [if_neg twice] at single
      obtain ⟨distinct, apart⟩ := ih single
      have new : name ∉ seen := fun member => twice (List.contains_iff_mem.mpr member)
      refine ⟨List.nodup_cons.mpr ⟨fun later => apart name later List.mem_cons_self, distinct⟩, ?_⟩
      intro other member old
      rcases List.mem_cons.mp member with rfl | later
      · exact new old
      · exact apart other later (List.mem_cons_of_mem _ old)

/-- The parameters of a procedure have different names. -/
theorem startDraft_distinct {c c' : Compiler} {name : String} {params : List Param}
    {returns : Option Ty} (done : startDraft name params returns c = .ok ((), c')) :
    (params.map (·.name)).Nodup := by
  cases twice : duplicate? [] (params.map (·.name)) with
  | none => exact (nodup_of_duplicate? twice).1
  | some double =>
    simp only [startDraft, get_bind, twice] at done
    split at done
    · cases done
    · split at done
      · cases done
      · cases done

end Compile

namespace Making

/-- A procedure keeps the name of its definition, which no procedure and no host had. -/
theorem unknown (m : Making) : m.draft.finish.name = m.name ∧ m.before.knows m.name = false := by
  obtain ⟨-, -, unknown, -⟩ := Compile.startDraft_ok m.starts
  exact ⟨m.signed.1, unknown⟩

theorem distinct (m : Making) : (m.draft.finish.params.map (·.name)).Nodup := by
  have same : m.draft.finish.params.map (·.name) = m.params.map (·.name) := by
    rw [← m.signed.2, Draft.finish, List.map_map]
    rfl
  rw [same]
  exact Compile.startDraft_distinct m.starts

/-- When a procedure is finished the types of all its parameters are known. -/
theorem params_settled (m : Making) : m.draft.params =
    m.draft.finish.params.map fun param => ⟨param.name, some param.type, param.slot⟩ := by
  have all : ∀ param ∈ m.draft.params, param.type ≠ none := by
    intro param member
    have settled := List.find?_eq_none.mp m.settled param member
    simpa using settled
  rw [Draft.finish, List.map_map]
  refine (List.map_id _).symm.trans (List.map_congr_left fun param member => ?_)
  have known := all param member
  obtain ⟨name, type, slot⟩ := param
  cases type with
  | none => exact absurd rfl known
  | some type => rfl

end Making

/-- Procedures have different names, and none has that of a host. -/
theorem Shelf.names {allowed : Node → Prop} {hosts : List (String × Signature)}
    {procedures : List Procedure} {library : Fragment}
    (shelf : Shelf allowed hosts procedures library) :
    (procedures.map (·.name)).Nodup ∧ ∀ p ∈ procedures, hosts.lookup p.name = none := by
  induction shelf with
  | empty => simp
  | @add procedures library _ m _ table earlier _ ih =>
    obtain ⟨same, unknown⟩ := m.unknown
    simp only [Compiler.knows, Bool.or_eq_false_iff, Option.isSome_eq_false_iff,
      Option.isNone_iff_eq_none] at unknown
    obtain ⟨⟨-, undefined⟩, hostless⟩ := unknown
    rw [Compiler.procedure?, earlier, List.find?_eq_none] at undefined
    rw [table] at hostless
    obtain ⟨distinct, apart⟩ := ih
    constructor
    · rw [List.map_append, List.nodup_append]
      refine ⟨distinct, by simp, ?_⟩
      rintro _ old _ new rfl
      obtain ⟨p, member, named⟩ := List.mem_map.mp old
      have last : p.name = m.name := by simpa [same, ← named] using new
      exact undefined p member (by simpa using last)
    · intro p member
      rcases List.mem_append.mp member with old | new
      · exact apart p old
      · rw [List.mem_singleton.mp new, same]
        exact hostless

namespace Compiler

variable {hosts : List (String × Signature)} {c : Compiler}

/-- All procedures came out of definitions, and the table of the host stays the same. -/
theorem Reached.shelf (reached : Reached hosts c) :
    c.hosts = hosts ∧ Shelf (fun _ => True) c.hosts c.procedures c.library := by
  induction reached with
  | new => exact ⟨rfl, .empty⟩
  | compile before done ih =>
    obtain ⟨top, derivation, -⟩ := compile_ok done
    exact ⟨(derivation.grows before.ready.tidy).hosts.trans ih.1,
      derivation.shelf before.ready (fun _ _ _ _ _ => trivial) ih.2⟩
  | forgetResult _ ih => exact ih

theorem Reached.exact_slots (reached : Reached hosts c) : c.slots.Exact c.owned := by
  induction reached with
  | new => exact SlotPool.exact_new
  | compile before done ih =>
    obtain ⟨top, derivation, -⟩ := compile_ok done
    exact derivation.upholds SlotPool.exact_lasting before.ready.tidy [] ih
  | forgetResult _ ih => exact ih

/-- The slot of the top-level result, those of the variables, of the parameters of all procedures
and of their results, and those that wait to be used again. -/
def cells (c : Compiler) : List UInt8 :=
  [resultSlot] ++ c.scope.bindings.map (·.2.slot) ++
    c.procedures.flatMap (·.params.map (·.slot)) ++ c.procedures.flatMap (·.resultSlot.toList) ++
    c.slots.freed

/-- What holds of a compiler between units. -/
structure Consistent (hosts : List (String × Signature)) (c : Compiler) : Prop where
  outside : c.draft = none
  top : c.scope.depth = 0
  depths : ∀ binding ∈ c.scope.bindings, binding.2.depth = 0
  noScratch : c.scope.scratch = []
  /-- Every procedure was made by a definition, and then all types were settled. -/
  settled : ∀ p ∈ c.procedures, ∃ m, c.Makes (fun _ => True) p m ∧
    m.draft.params = p.params.map (fun param => ⟨param.name, some param.type, param.slot⟩) ∧
    m.draft.returns.getD .void = p.returns
  paramNames : ∀ p ∈ c.procedures, (p.params.map (·.name)).Nodup
  names : (c.procedures.map (·.name)).Nodup ∧ ∀ p ∈ c.procedures, hosts.lookup p.name = none
  bounded : c.slots.next ≤ 256
  distinct : c.cells.Nodup
  complete : ∀ slot, slot ∈ c.cells ↔ slot.toNat < c.slots.next

/-- Between units the slots in use are those of variables and of procedures. -/
theorem Ready.cells_perm (ready : c.Ready) :
    c.cells.Perm (resultSlot :: (c.owned ++ c.slots.freed)) := by
  have split := List.flatMap_append_perm c.procedures (fun p => p.params.map (·.slot))
    (fun p => p.resultSlot.toList)
  have whole :
      (fun p : Procedure => p.params.map (·.slot) ++ p.resultSlot.toList) = Procedure.slots :=
    rfl
  rw [whole] at split
  rw [List.perm_iff_count] at split ⊢
  intro slot
  have each := split slot
  simp only [cells, owned, procedureSlots, Scope.slots, ready.noScratch, ready.outside,
    List.count_append, List.count_cons, List.count_nil, List.map_nil] at each ⊢
  omega

theorem Reached.consistent (reached : Reached hosts c) : c.Consistent hosts := by
  have ready := reached.ready
  have exact' := reached.exact_slots
  obtain ⟨table, shelf⟩ := reached.shelf
  have names := shelf.names
  rw [table] at names
  have made (p : Procedure) (member : p ∈ c.procedures) : ∃ m, c.Makes (fun _ => True) p m := by
    obtain ⟨code, m, makes, -⟩ := holds_of_mem shelf member
    exact ⟨m, makes⟩
  have zero : resultSlot.toNat = 0 := rfl
  refine ⟨ready.outside, ready.top, fun binding member => ?_, ready.noScratch, fun p member => ?_,
    fun p member => ?_, names, exact'.bounded, ?_, fun slot => ?_⟩
  · have within := ready.tidy.bindings binding member
    rw [ready.top] at within
    exact Nat.le_zero.mp within
  · obtain ⟨m, makes⟩ := made p member
    have settled := m.params_settled
    rw [makes.finished] at settled
    exact ⟨m, makes, settled, congrArg Procedure.returns makes.finished⟩
  · obtain ⟨m, makes⟩ := made p member
    rw [← makes.finished]
    exact m.distinct
  · rw [ready.cells_perm.nodup_iff, List.nodup_cons]
    refine ⟨fun member => ?_, exact'.distinct⟩
    have positive := (exact'.given _ member).1
    omega
  · rw [ready.cells_perm.mem_iff, List.mem_cons]
    constructor
    · rintro (rfl | member)
      · exact exact'.positive
      · exact (exact'.given slot member).2
    · intro below
      by_cases first : slot = resultSlot
      · exact .inl first
      · refine .inr (exact'.kept slot (Nat.pos_of_ne_zero fun same => first ?_) below)
        exact UInt8.toNat.inj (same.trans zero.symm)

/-- A compilation whose fault is known fails with it. -/
theorem eq_error_of_fault {found : Except CompileError (Bytecode × Compiler)} (fault : CompileError)
    (known : (match found with
      | .error other => decide (other = fault)
      | .ok _ => false) = true) : found = .error fault := by
  cases found with
  | error other => rw [of_decide_eq_true known]
  | ok pair => cases known

end Compiler

end Primer
