import Primer.Proofs.Regions

/-!
Where the code of the procedures comes from. The library keeps the code of every procedure that was
defined, and each piece was made by the compilation of a definition, in a state that knew the
earlier procedures. What is to hold of the code of all procedures is proved of these compilations.
-/

set_option autoImplicit false
set_option relaxedAutoImplicit false

namespace Primer

open Compile

/-- The making of a procedure: its definition compiles in a state between two statements of the top
level. -/
structure Making where
  name : String
  params : List Param
  returns : Option Ty
  body : List Node
  /-- Before the definition. -/
  before : Compiler
  /-- When the body starts. -/
  started : Compiler
  inner : Compiled
  /-- When the body ends. -/
  ended : Compiler
  draft : Draft
  ready : before.Ready
  starts : startDraft name params returns before = .ok ((), started)
  compiles : Yields (.block body) started inner ended
  entry : ended.draftOf? name = some draft
  settled : draft.open? = none
  assumed : ∀ type, draft.assumed = some type → type = draft.finish.returns
  returning : draft.finish.returns = .void ∨ Node.blockReturns body

namespace Making

/-- The definition that was compiled. -/
def definition (m : Making) : Node := .define m.name m.params m.returns m.body

def code (m : Making) : Fragment := procedureCode m.draft.finish m.body m.inner.code

/-- The body leaves the state as it was but for what is known of the draft. -/
theorem steady (m : Making) : m.started.Steady m.ended := by
  obtain ⟨-, -, -, parameters, slots, -, -, started⟩ := startDraft_ok m.starts
  exact (m.compiles.growth (by rw [started]; exact m.ready.tidy)).2 trivial

theorem started_eq (m : Making) : ∃ parameters slots,
    m.before.slots.Hands (parameters.map (·.slot)) slots ∧
      parameters.map (fun p => (p.name, p.type)) = m.params.map (fun p => (p.name, p.type)) ∧
      m.started = { m.before with
        slots
        current := some m.name
        pending := some
          { name := m.name, address := m.before.libraryEnd, params := parameters
            returns := m.returns, declared := m.returns.isSome } } := by
  obtain ⟨-, -, -, parameters, slots, hands, named, started⟩ := startDraft_ok m.starts
  exact ⟨parameters, slots, hands, named, started⟩

/-- When the body ends, the procedure is still the one being compiled. -/
theorem drafted (m : Making) : m.ended.draft = some m.draft := by
  obtain ⟨parameters, slots, -, -, started⟩ := m.started_eq
  have current : m.ended.current = some m.name := by rw [m.steady.current, started]
  exact (Compiler.draft_of_current current).trans m.entry

theorem tidy (m : Making) : m.started.scope.Tidy := by
  obtain ⟨parameters, slots, -, -, started⟩ := m.started_eq
  rw [started]
  exact m.ready.tidy

theorem procedures (m : Making) : m.ended.procedures = m.before.procedures := by
  obtain ⟨parameters, slots, -, -, started⟩ := m.started_eq
  rw [m.steady.procedures, started]

theorem hosts (m : Making) : m.ended.hosts = m.before.hosts := by
  obtain ⟨parameters, slots, -, -, started⟩ := m.started_eq
  rw [m.steady.hosts, started]

/-- The draft at the end of the body is the one that was started. -/
theorem continues (m : Making) : ∃ draft, m.started.draft = some draft ∧ draft.Continues m.draft ∧
    draft.address = m.before.libraryEnd ∧ draft.returns = m.returns ∧
      draft.declared = m.returns.isSome := by
  obtain ⟨parameters, slots, -, -, started⟩ := m.started_eq
  have kept := m.steady.draft
  rw [m.drafted] at kept
  simp only [started, Compiler.draft_mk_some] at kept ⊢
  exact ⟨_, rfl, kept, rfl, rfl, rfl⟩

/-- The procedure has the name of its definition, and parameters of the names that it lists. -/
theorem signed (m : Making) :
    m.draft.name = m.name ∧ m.draft.params.map (·.name) = m.params.map (·.name) := by
  obtain ⟨parameters, slots, -, listed, started⟩ := m.started_eq
  have kept := m.steady.draft
  simp only [started, Compiler.draft_mk_some, m.drafted] at kept
  refine ⟨kept.name, ?_⟩
  have ends := congrArg (List.map Prod.fst) kept.params
  have begins := congrArg (List.map Prod.fst) listed
  simp only [List.map_map, Function.comp_def] at ends begins
  exact ends.trans begins

theorem address (m : Making) : m.draft.address = m.before.libraryEnd := by
  obtain ⟨draft, -, kept, address, -⟩ := m.continues
  exact kept.address.trans address

/-- The calls in the code name the procedure or earlier ones. -/
theorem sound (m : Making) : m.code.Sound fun target =>
    ∃ other ∈ m.before.procedures ++ [m.draft.finish], other.address = target := by
  refine procedureCode_sound ((m.compiles.sound m.tidy).mono fun target callable => ?_)
  rcases callable with ⟨other, member, same⟩ | ⟨draft, inside, same⟩
  · rw [m.procedures] at member
    exact ⟨other, List.mem_append_left _ member, same⟩
  · obtain rfl : m.draft = draft := Option.some.inj (m.drafted.symm.trans inside)
    exact ⟨m.draft.finish, List.mem_append_right _ List.mem_cons_self, same⟩

theorem sealed (m : Making) : ¬m.code.Exits :=
  procedureCode_sealed (m.compiles.sound m.tidy).closed (m.compiles.sealed m.tidy)

end Making

/-- Procedures and their code, with how each was made. All definitions are of an allowed kind. -/
inductive Shelf (allowed : Node → Prop) (hosts : List (String × Signature)) :
    List Procedure → Fragment → Prop
  | empty : Shelf allowed hosts [] []
  | add {procedures : List Procedure} {library : Fragment}
      (before : Shelf allowed hosts procedures library)
      (m : Making) (kind : allowed m.definition) (table : m.before.hosts = hosts)
      (earlier : m.before.procedures = procedures) (shelved : m.before.library = library) :
      Shelf allowed hosts (procedures ++ [m.draft.finish])
        (library ++ m.code.shift m.draft.finish.address)

namespace Shelf

variable {allowed : Node → Prop} {hosts : List (String × Signature)}

/-- The code of each procedure stands in its region. -/
theorem region {procedures : List Procedure} {library : Fragment}
    (shelf : Shelf allowed hosts procedures library) {before after : List Procedure}
    {procedure : Procedure} (split : procedures = before ++ procedure :: after) :
    ∃ (less more : Fragment) (m : Making), allowed m.definition ∧ m.before.hosts = hosts ∧
      m.before.procedures = before ∧ m.draft.finish = procedure ∧
      Library.Region procedures library procedure
        ((after.map (·.address)).headD (Compiler.libraryStart + library.size)) less
        m.code more := by
  induction shelf generalizing after with
  | empty => simp at split
  | @add procedures library shelf m kind table earlier shelved ih =>
    have address : m.draft.finish.address = Compiler.libraryStart + library.size := by
      rw [← shelved]
      exact m.address
    rcases List.eq_nil_or_concat after with rfl | ⟨others, final, rfl⟩
    · obtain ⟨rfl, same⟩ := List.append_inj' split rfl
      cases same
      refine ⟨library, [], m, kind, table, earlier, rfl, by simp, address, ?_, ?_, m.sealed⟩
      · simp [address, Nat.add_assoc]
      · exact earlier ▸ m.sound
    · rw [List.concat_eq_append, ← List.cons_append, ← List.append_assoc] at split
      obtain ⟨rfl, same⟩ := List.append_inj' split rfl
      cases same
      obtain ⟨less, more, inner, kind', table', earlier', finished, found⟩ := ih rfl
      rw [Library.stop_concat address]
      exact ⟨less, _, inner, kind', table', earlier', finished, found.extend _ _⟩

end Shelf

/-- All definitions among the statements are of an allowed kind. -/
def Program.Defines (allowed : Node → Prop) (program : Program) : Prop :=
  ∀ name params returns body, .define name params returns body ∈ program →
    allowed (.define name params returns body)

/-- A definition that compiles makes a procedure and adds it to the library. -/
theorem Yields.making {name : String} {params : List Param} {returns : Option Ty} {body : List Node}
    {want : Option Ty} {c c' : Compiler} {x : Compiled}
    (derivation : Yields (.node (.define name params returns body) want) c x c') (ready : c.Ready) :
    ∃ m : Making, m.definition = .define name params returns body ∧ m.before = c ∧
      c'.hosts = c.hosts ∧ c'.procedures = c.procedures ++ [m.draft.finish] ∧
      c'.library = c.library ++ m.code.shift m.draft.finish.address := by
  cases derivation with
  | define started inner finished =>
    obtain ⟨draft, entry, settled, assumed, returning, rfl⟩ := finishDraft_ok finished
    let m : Making := ⟨_, _, _, _, c, _, _, _, draft, ready, started, inner, entry, settled,
      assumed, returning⟩
    have library : m.ended.library = c.library := by
      obtain ⟨parameters, slots, -, -, started⟩ := m.started_eq
      rw [m.steady.library, started]
    refine ⟨m, rfl, rfl, m.hosts, ?_, ?_⟩
    · rw [← m.procedures]
    · rw [← library]
      rfl

theorem Yields.shelf_node {allowed : Node → Prop} {n : Node} {c c' : Compiler} {x : Compiled}
    (derivation : Yields (.node n none) c x c') (ready : c.Ready)
    (kind : Program.Defines allowed [n])
    (shelf : Shelf allowed c.hosts c.procedures c.library) :
    Shelf allowed c'.hosts c'.procedures c'.library := by
  cases introduces : n.introduces with
  | false =>
    have steady := (derivation.growth ready.tidy).2 introduces
    rw [steady.hosts, steady.procedures, steady.library]
    exact shelf
  | true =>
    cases n with
    | declare =>
      cases derivation with
      | declare fresh allocated initial typed =>
        obtain ⟨slots, -, rfl⟩ := allocate_ok allocated
        have steady := (initial.growth ready.tidy).2 trivial
        rw [steady.hosts, steady.procedures, steady.library]
        exact shelf
    | define =>
      obtain ⟨m, same, rfl, hosts, procedures, library⟩ := derivation.making ready
      rw [hosts, procedures, library]
      exact .add shelf m (same ▸ kind _ _ _ _ List.mem_cons_self) rfl rfl rfl
    | _ => cases introduces

/-- A unit puts the procedures that it defines on the shelf. -/
theorem Yields.shelf {allowed : Node → Prop} {nodes : List Node} {c c' : Compiler} {x : Compiled}
    (derivation : Yields (.statements nodes) c x c') (ready : c.Ready)
    (kind : Program.Defines allowed nodes) (shelf : Shelf allowed c.hosts c.procedures c.library) :
    Shelf allowed c'.hosts c'.procedures c'.library := by
  induction nodes generalizing c x with
  | nil =>
    cases derivation
    exact shelf
  | cons n more ih =>
    cases derivation with
    | @moreStatements _ _ _ _ _ _ c₂ _ _ first finished rest =>
      have settled := finishStatement_steady finished
      have between : c₂.Ready := ready.yields (.moreStatements first finished .noStatements)
      have added := first.shelf_node ready
        (fun name params returns body member => kind name params returns body
          (List.mem_cons.mpr (.inl (List.mem_singleton.mp member)))) shelf
      refine ih rest between (fun name params returns body member =>
        kind name params returns body (List.mem_cons_of_mem _ member)) ?_
      rw [show _ = _ from settled.hosts, show _ = _ from settled.procedures,
        show _ = _ from settled.library]
      exact added

end Primer
