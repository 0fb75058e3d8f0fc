import Primer.Proofs.Compilation.Retyping
import Primer.Proofs.SelfCalls

/-!
Definitions with the types that were found for their parameters. A definition that leaves out the
types of parameters says the same as the one that gives the types that the compiler finds, unless
the compiler finds two types for one parameter and takes the second.
-/

set_option autoImplicit false
set_option relaxedAutoImplicit false

namespace Primer

open Compile Compiler

/-- The parameter with a type, unless it has one. -/
def Param.annotate (param : Param) (type : Ty) : Param :=
  { param with type := some (param.type.getD type) }

/-- The parameters of a definition with the types that the finished procedure has for them. -/
def Procedure.annotate (procedure : Procedure) (params : List Param) : List Param :=
  List.zipWith Param.annotate params procedure.signature.params

namespace Compile

variable {c c' : Compiler}

/-- Parameters of other types get the same slots. -/
theorem allocateParams_retyped {params others : List Param}
    {parameters : List (Parameter (Option Ty))} (length : others.length = params.length)
    (done : allocateParams params c = .ok (parameters, c')) :
    allocateParams others c =
      .ok (List.zipWith (fun other param => ⟨other.name, other.type, param.slot⟩) others parameters,
      c') := by
  induction params generalizing c parameters others with
  | nil =>
    obtain rfl := List.eq_nil_of_length_eq_zero length
    simp only [allocateParams, pure_eq_ok, Prod.mk.injEq] at done ⊢
    exact ⟨rfl, done.2⟩
  | cons param more ih =>
    cases others with
    | nil => simp at length
    | cons other rest =>
      simp only [allocateParams] at done ⊢
      obtain ⟨slot, between, allocated, later⟩ := bind_eq_ok.mp done
      obtain ⟨given, after, allocatedMore, last⟩ := bind_eq_ok.mp later
      simp only [pure_eq_ok, Prod.mk.injEq] at last
      obtain ⟨rfl, rfl⟩ := last
      refine bind_eq_ok.mpr ⟨slot, between, allocated, ?_⟩
      exact bind_eq_ok.mpr ⟨_, _, ih (by simpa using length) allocatedMore, rfl⟩

/-- A procedure whose parameters have other types is started in the same way. -/
theorem startDraft_retyped {name : String} {params others : List Param} {returns : Option Ty}
    (names : others.map (·.name) = params.map (·.name))
    (done : startDraft name params returns c = .ok ((), c')) :
    ∃ draft, c'.draft = some draft ∧ startDraft name others returns c =
      .ok ((), c'.withParams
        (List.zipWith (fun other param => ⟨other.name, other.type, param.slot⟩) others
          draft.params)) := by
  simp only [startDraft, get_bind] at done ⊢
  rw [names]
  by_cases inside : c.current.isSome || 0 < c.scope.depth
  · simp [inside] at done
  · by_cases known : c.knows name
    · simp [inside, known] at done
    · cases twice : duplicate? [] (params.map (·.name)) with
      | some double => simp [inside, known, twice] at done
      | none =>
        simp only [inside, known, twice] at done ⊢
        obtain ⟨parameters, between, allocated, last⟩ := bind_eq_ok.mp done
        simp only [modify_eq_ok, Prod.mk.injEq, true_and] at last
        subst last
        have length : others.length = params.length := by
          simpa using congrArg List.length names
        exact ⟨_, draft_mk_some _ _ _ _ _ _ rfl,
          bind_eq_ok.mpr ⟨_, _, allocateParams_retyped length allocated, rfl⟩⟩

end Compile

/-- The end of a statement of known type does not depend on the statement. -/
theorem Compile.finishStatement_typed {n : Node} {x : Compiled} {type : Ty} (other : Node)
    (typed : x.type = some type) : finishStatement n x = finishStatement other x := by
  simp [finishStatement, typed]

theorem Yields.define_type {name : String} {params : List Param} {returns : Option Ty}
    {body : List Node} {want : Option Ty} {c c' : Compiler} {x : Compiled}
    (derivation : Yields (.node (.define name params returns body) want) c x c') :
    x.type = some .void := by
  cases derivation
  rfl

/-- Statements that have a derivation make a unit that compiles. -/
theorem Yields.compile {program : Program} {top : Fragment} {c c' : Compiler}
    (derivation : Yields (.statements program) c ⟨none, top⟩ c') :
    c.compile program = .ok (c'.assemble (top ++ [Instruction.ret]), c') := by
  obtain ⟨parts, done, same⟩ := joined_eq_ok.mp derivation.run
  rw [compile_eq done, ← (Compiled.mk.inj same).2]

namespace Making

/-- In the end every parameter has a type. -/
theorem typed (m : Making) (param : Parameter (Option Ty)) (member : param ∈ m.draft.params) :
    param.type ≠ none := by
  rw [m.params_settled] at member
  obtain ⟨finished, -, rfl⟩ := List.mem_map.mp member
  simp

theorem annotate_names (m : Making) :
    (m.draft.finish.annotate m.params).map (·.name) = m.params.map (·.name) := by
  have length : m.params.length = m.draft.finish.signature.params.length := by
    have same := congrArg List.length m.signed.2
    simp only [List.length_map] at same
    simp [Procedure.signature, Draft.finish, same]
  refine List.ext_getElem (by simp [Procedure.annotate, ← length]) fun i _ _ => ?_
  simp [Procedure.annotate, Param.annotate]

/-- The parameters of the definition with the types that were found for them are those of the draft
in the end. -/
theorem annotate_params (m : Making) {first : Draft} (started : m.started.draft = some first) :
    List.zipWith (fun (other : Param) (param : Parameter (Option Ty)) =>
        (⟨other.name, other.type, param.slot⟩ : Parameter (Option Ty)))
      (m.draft.finish.annotate m.params) first.params = m.draft.params := by
  obtain ⟨parameters, slots, -, named, begun⟩ := m.started_eq
  have same := congrArg Compiler.draft begun
  simp only [started, draft_mk_some, Option.some.injEq] at same
  subst same
  have kept := m.steady.draft
  rw [started, m.drafted] at kept
  have settles := m.compiles.settles m.tidy trivial
  refine List.ext_getElem? fun i => ?_
  have places := congrArg (·[i]?) kept.params
  have names := congrArg (·[i]?) named
  simp only [List.getElem?_map] at places names
  cases here : m.draft.params[i]? with
  | none =>
    rw [here, Option.map_none, eq_comm, Option.map_eq_none_iff] at places
    rw [List.getElem?_zipWith, places]
    cases (m.draft.finish.annotate m.params)[i]? <;> rfl
  | some last =>
    rw [here, Option.map_some, eq_comm, Option.map_eq_some_iff] at places
    obtain ⟨param, begins, place⟩ := places
    rw [begins, Option.map_some, eq_comm, Option.map_eq_some_iff] at names
    obtain ⟨given, written, same⟩ := names
    obtain ⟨type, final⟩ : ∃ type, last.type = some type :=
      Option.ne_none_iff_exists'.mp (m.typed last (List.mem_of_getElem? here))
    have kept : given.type.getD type = type := by
      cases early : given.type with
      | none => rfl
      | some found =>
        have known : m.started.paramTypes[i]? = some (some found) := by
          simp [paramTypes, started, begins, ← (Prod.mk.inj same).2, early]
        have later := settles i found known
        simpa [paramTypes, m.drafted, here, final, eq_comm] using later
    have reported : m.draft.finish.signature.params[i]? = some type := by
      simp [Procedure.signature, Draft.finish, here, final]
    rw [List.getElem?_zipWith, begins, Procedure.annotate, List.getElem?_zipWith, written, reported]
    simp only [Prod.mk.injEq] at place same
    simp only [Param.annotate, kept, Option.some.injEq]
    rw [same.1, place.1, place.2, ← final]

/-- At the end of the body the parameters are what they are. -/
theorem ended_withParams (m : Making) : m.ended.withParams m.draft.params = m.ended := by
  have entry := (draft_eq_some.mp m.drafted).2
  rw [Compiler.withParams, entry]
  show { m.ended with pending := some m.draft } = m.ended
  rw [← entry]

theorem ended_fits (m : Making) : m.ended.Fits m.draft.params := by
  constructor
  · intro draft within
    rw [m.drafted] at within
    cases within
    rfl
  · intro i type known param here
    rw [paramTypes, m.drafted] at known
    simpa [here] using known

end Making

/-- A definition makes the same procedure when it gives the types that were found for its
parameters, if no type was replaced. -/
theorem Yields.annotated {name : String} {params : List Param} {returns : Option Ty}
    {body : List Node} {want : Option Ty} {c c' : Compiler} {x : Compiled}
    (derivation : Yields (.node (.define name params returns body) want) c x c') (ready : c.Ready) :
    ∃ m : Making, m.definition = .define name params returns body ∧ m.before = c ∧
      c'.procedures = c.procedures ++ [m.draft.finish] ∧
      ((Task.block body).Consistent m.started →
        Yields (.node (.define name (m.draft.finish.annotate params) returns body) want)
          c x c') := by
  cases derivation with
  | define started inner finished =>
    obtain ⟨draft, entry, settled, assumed, returning, after⟩ := finishDraft_ok finished
    let m : Making :=
      ⟨_, _, _, _, c, _, _, _, draft, ready, started, inner, entry, settled, assumed,
        returning⟩
    refine ⟨m, rfl, rfl, ?_, fun consistent => ?_⟩
    · rw [after, ← m.procedures]
    · obtain ⟨first, begun, starts⟩ := startDraft_retyped m.annotate_names started
      rw [m.annotate_params begun] at starts
      refine .define starts ?_ finished
      have inside : m.started.draft.isSome := by rw [begun]; rfl
      have again := inner.repeats ⟨m.tidy, trivial, inside, m.ended_fits, consistent⟩ fun _ => rfl
      rwa [m.ended_withParams] at again

namespace Compiler

/-- A definition that compiles leaves a procedure behind. The definition that also gives the types
that the procedure has for its parameters compiles to the same bytecode and leaves the compiler in
the same state, unless somewhere in the body a comparison, an assignment or a call of the procedure
to itself gives a parameter another type than the one that was found inside it. -/
theorem Reached.annotated_compile {hosts : List (String × Signature)} {c c' : Compiler}
    {name : String} {params : List Param} {returns : Option Ty} {body : List Node} {code : Bytecode}
    (reached : Reached hosts c)
    (done : c.compile [.define name params returns body] = .ok (code, c')) :
    ∃ m : Making, m.definition = .define name params returns body ∧ m.before = c ∧
      c'.procedure? name = some m.draft.finish ∧
      (c.compile [.define name (m.draft.finish.annotate params) returns body] = .ok (code, c') ∨
        ∃ offset task d, Occurs (.block body) m.started offset task d ∧ task.Resettles d) := by
  obtain ⟨top, derivation, rfl⟩ := compile_ok done
  cases derivation with
  | moreStatements first finished rest =>
    cases rest
    obtain ⟨m, same, rfl, procedures, again⟩ := first.annotated reached.ready
    obtain ⟨rfl, rfl, rfl, rfl⟩ := Node.define.inj same
    have kept : c'.procedures = _ := (finishStatement_steady finished).procedures
    refine ⟨m, rfl, rfl, m.procedure? (kept.trans procedures), ?_⟩
    by_cases consistent : (Task.block m.body).Consistent m.started
    · left
      have finished' := finished
      rw [finishStatement_typed
        (Node.define m.name (m.draft.finish.annotate m.params) m.returns m.body)
        first.define_type] at finished'
      exact (Yields.moreStatements (again consistent) finished' .noStatements).compile
    · right
      simpa only [Task.Consistent, not_forall, Classical.not_not, exists_prop] using consistent

/-- A parameter that is compared with a comparison of itself is found to be a number inside and a
boolean outside; the definition compiles, but not when it gives the type that was found. -/
theorem annotated_compile_replaced :
    let body : List Node := [.binary .equal (.var "x")
      (.binary (.order .less) (.var "x") (.literal (.number .one)))]
    ∃ (code : Bytecode) (c' : Compiler) (m : Making),
      (new []).compile [.define "p" [⟨"x", none⟩] none body] = .ok (code, c') ∧
        c'.procedure? "p" = some m.draft.finish ∧
        m.draft.finish.annotate [⟨"x", none⟩] = [⟨"x", some .boolean⟩] ∧
        ((new []).compile [.define "p" [⟨"x", some .boolean⟩] none body]).toOption.isNone = true ∧
        ∃ offset task d, Occurs (.block body) m.started offset task d ∧ task.Resettles d := by
  intro body
  have final : ((new []).compile [.define "p" [⟨"x", none⟩] none body]).toOption.any (fun made =>
      decide ((made.2.procedure? "p").map (·.annotate [⟨"x", none⟩]) =
        some [⟨"x", some .boolean⟩])) = true := by
    decide +kernel
  have refused : ((new []).compile [.define "p" [⟨"x", some .boolean⟩] none body]).toOption.isNone =
      true := by
    decide +kernel
  cases done : (new []).compile [.define "p" [⟨"x", none⟩] none body] with
  | error fault => simp [done, Except.toOption] at final
  | ok found =>
    obtain ⟨code, c'⟩ := found
    obtain ⟨m, -, -, known, outcome⟩ := Reached.new.annotated_compile done
    have boolean : m.draft.finish.annotate [⟨"x", none⟩] = [⟨"x", some .boolean⟩] := by
      simpa [done, Except.toOption, known] using final
    rw [boolean] at outcome
    rcases outcome with compiles | replaced
    · rw [compiles] at refused
      cases refused
    · exact ⟨code, c', m, rfl, known, boolean, refused, replaced⟩

end Compiler

end Primer
