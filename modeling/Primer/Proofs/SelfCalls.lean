import Primer.Proofs.Compilation.ReturnTypes
import Primer.Proofs.Diagnostics
import Primer.Proofs.Retention

/-!
Calls of a procedure to itself. Such a call is compiled before all is known of the procedure. What
it is taken to give back is what the procedure gives back in the end, unless a return before the
call decided the type and a return behind the call decided otherwise.
-/

set_option autoImplicit false
set_option relaxedAutoImplicit false

namespace Primer

open Compile Compiler

/-- The type that a node is taken to have where it stands: the one that is found when it is
compiled, or else the one that is settled by the statement that it is or by the other side of a
comparison. -/
inductive Task.Takes (whole : Task) (start : Compiler) (offset : Nat) (n : Node) (c : Compiler) :
    Ty → Prop
  | found {want : Option Ty} {x : Compiled} {c' : Compiler} {type : Ty}
      (occurs : Occurs whole start offset (.node n want) c) (made : Yields (.node n want) c x c')
      (typed : x.type = some type) : Takes whole start offset n c type
  | statement {more : List Node} {x : Compiled} {c' : Compiler}
      (occurs : Occurs whole start offset (.statements (n :: more)) c)
      (made : Yields (.node n none) c x c') (unknown : x.type = none) :
      Takes whole start offset n c .void
  | compared {op : BinaryOp} {i : Instruction} {other : Node} {want : Option Ty} {x y : Compiled}
      {c₁ c₂ : Compiler} {type : Ty} (compares : op.comparison? = some i)
      (occurs : Occurs whole start offset (.node (.binary op n other) want) c)
      (made : Yields (.node n none) c x c₁) (unknown : x.type = none)
      (right : Yields (.node other none) c₁ y c₂) (typed : y.type = some type) :
      Takes whole start offset n c type

namespace Compile

variable {c c' : Compiler}

/-- A call of the procedure being compiled has the type that is known of it, or else relies on the
type that is wanted. -/
theorem finishCall_drafted {draft : Draft} {arguments : Fragment} {want : Option Ty}
    {out : Compiled}
    (inside : c.draft.isSome)
    (done : finishCall (.drafted draft) arguments want c = .ok (out, c')) :
    (out.type = c.returning ∧ c' = c ∧ (out.type = none → want = none)) ∨
      ∃ type, want = some type ∧ out.type = some type ∧ assumeReturn type c = .ok ((), c') := by
  obtain ⟨now, inside⟩ := Option.isSome_iff_exists.mp inside
  simp only [finishCall, get_bind, inside, Option.getD_some] at done
  rw [returning, inside, Option.bind_some]
  cases known : now.returns with
  | some type =>
    simp only [known, pure_eq_ok, Prod.mk.injEq] at done
    rw [done.1]
    exact .inl ⟨rfl, done.2, fun unknown => by cases unknown⟩
  | none =>
    cases want with
    | none =>
      simp only [known, pure_eq_ok, Prod.mk.injEq] at done
      rw [done.1]
      exact .inl ⟨rfl, done.2, fun _ => rfl⟩
    | some type =>
      simp only [known] at done
      obtain ⟨⟨⟩, between, assumes, last⟩ := bind_eq_ok.mp done
      simp only [pure_eq_ok, Prod.mk.injEq] at last
      rw [last.1]
      exact .inr ⟨type, rfl, rfl, last.2 ▸ assumes⟩

/-- A call that is settled relies on the type from then on. -/
theorem settle_call {name : String} {args : List Node} {type : Ty}
    (done : settle (.call name args) type c = .ok ((), c')) : c'.assumed = some type := by
  simp only [settle, get_bind] at done
  by_cases drafting : c.drafting name
  · simp only [drafting, if_true] at done
    exact (assumeReturn_assumed done).1
  · simp [drafting] at done

/-- A call of open type that is a statement relies on nothing being given back. -/
theorem finishStatement_call {name : String} {args : List Node} {x : Compiled} {code : Fragment}
    (unknown : x.type = none) (done : finishStatement (.call name args) x c = .ok (code, c')) :
    c'.assumed = some .void := by
  unfold finishStatement at done
  simp only [unknown, get_bind] at done
  by_cases drafting : c.drafting name
  · simp only [drafting, if_true] at done
    obtain ⟨⟨⟩, between, assumes, last⟩ := bind_eq_ok.mp done
    simp only [pure_bind, if_true, modify_bind, pure_eq_ok, Prod.mk.injEq] at last
    rw [last.2]
    exact (assumeReturn_assumed assumes).1
  · simp [drafting] at done

end Compile

/-- Only the statement that a node is and the comparison that it is the left side of may settle a
type that the node leaves open. -/
theorem Part.of_open {task inner : Task} {n : Node} {c d d' e : Compiler} {x z : Compiled}
    {rest : Nat}
    (part : Part task c rest inner d) (same : inner = .node n none) (around : Yields task c z e)
    (made : Yields (.node n none) d x d') (unknown : x.type = none) :
    rest = 0 ∧ d = c ∧ ((∃ more, task = .statements (n :: more)) ∨
      ∃ op i other want y c₂ type, BinaryOp.comparison? op = some i ∧
        task = .node (.binary op n other) want ∧ Yields (.node other none) d' y c₂ ∧
        y.type = some type) := by
  cases part with
  | firstStatement =>
    cases same
    exact ⟨rfl, rfl, .inl ⟨_, rfl⟩⟩
  | comparisonLeft compares => cases around with
    | comparison _ left _ right _ agreed =>
      cases same
      obtain ⟨rfl, rfl⟩ := made.unique left
      rw [unknown] at right agreed
      obtain ⟨type, known, -⟩ := agree_open agreed
      exact ⟨rfl, rfl, .inr ⟨_, _, _, _, _, _, type, compares, rfl, right, known⟩⟩
    | _ => cases compares
  | comparisonRight compares first => cases around with
    | comparison _ left _ right _ agreed =>
      obtain ⟨rfl, rfl⟩ := first.unique left
      obtain ⟨rfl, isOpen⟩ := Task.node.inj same
      rw [isOpen] at right agreed
      obtain ⟨rfl, rfl⟩ := made.unique right
      obtain ⟨type, known, -⟩ := agree_open agreed
      rw [unknown] at known
      cases known
    | _ => cases compares
  | convert => cases around with
    | convert value typed =>
      cases same
      obtain ⟨rfl, rfl⟩ := made.unique value
      rw [unknown] at typed
      cases typed
  | value => cases around with
    | valueOf => cases same
    | valueFound inner typed =>
      cases same
      obtain ⟨rfl, rfl⟩ := made.unique inner
      rw [unknown] at typed
      cases typed
  | giveFound undeclared => cases around with
    | giveDeclared declared => rw [declared] at undeclared; cases undeclared
    | giveFound _ inner typed =>
      obtain ⟨rfl, unwanted⟩ := Task.node.inj same
      rw [unwanted] at inner
      obtain ⟨rfl, rfl⟩ := made.unique inner
      rw [unknown] at typed
      cases typed
  | _ => cases same

namespace Making

variable {offset : Nat} {task : Task} {args : List Node} {want : Option Ty} {c c' : Compiler}
  {x : Compiled} {type : Ty}

/-- When the procedure is there, its name belongs to it. -/
theorem procedure? (m : Making) (known : c.procedures = m.before.procedures ++ [m.draft.finish]) :
    c.procedure? m.name = some m.draft.finish := by
  obtain ⟨named, unknown⟩ := m.unknown
  simp only [knows, Bool.or_eq_false_iff, Option.isSome_eq_false_iff,
    Option.isNone_iff_eq_none] at unknown
  have undefined : m.before.procedures.find? (·.name = m.name) = none := unknown.1.2
  rw [Compiler.procedure?, known, List.find?_append, undefined, Option.none_or,
    List.find?_singleton, if_pos (decide_eq_true named)]

/-- At every place in the body the procedure is being compiled. -/
theorem inside (m : Making) (occurs : Occurs (.block m.body) m.started offset task c) :
    ∃ draft, c.draft = some draft ∧ draft.name = m.name ∧ draft.Continues m.draft := by
  have kept := (occurs.precedes m.compiles m.since).draft
  rw [m.drafted] at kept
  cases within : c.draft with
  | none => rw [within] at kept; exact kept.elim
  | some draft =>
    rw [within] at kept
    exact ⟨draft, rfl, kept.name.symm.trans m.unknown.1, kept⟩

/-- In the body the name of the procedure stands for the procedure that is being compiled. -/
theorem find_own (m : Making) (occurs : Occurs (.block m.body) m.started offset task c)
    {callee : Callee} (found : Callee.find m.name c = .ok (callee, c)) :
    ∃ draft, callee = .drafted draft ∧ c.draft = some draft ∧ draft.Continues m.draft := by
  obtain ⟨draft, within, named, continues⟩ := m.inside occurs
  have own : c.draft.filter (·.name = m.name) = some draft := by
    rw [within, Option.filter_some, if_pos (decide_eq_true named)]
  have known := (find_ok found).1
  cases callee with
  | drafted other =>
    obtain rfl := Option.some.inj (known.1.symm.trans within)
    exact ⟨other, rfl, within, continues⟩
  | defined procedure => exact absurd (own.symm.trans known.1) nofun
  | host name signature => exact absurd (own.symm.trans known.2.1) nofun

/-- What a call of the procedure to itself finds. -/
theorem call_cases (m : Making) (occurs : Occurs (.block m.body) m.started offset task c)
    (made : Yields (.node (.call m.name args) want) c x c') :
    ∃ callee y c₁, Callee.find m.name c = .ok (callee, c) ∧
      Yields (.arguments callee 0 args) c y c₁ ∧ x.code = y.code ++ [callee.instruction] ∧
      ((x.type = c₁.returning ∧ c' = c₁ ∧ (x.type = none → want = none)) ∨
        ∃ type, want = some type ∧ x.type = some type ∧ assumeReturn type c₁ = .ok ((), c')) := by
  have tidy := (occurs.since m.since).elim fun _ since => since.tidy
  cases made with
  | @call _ _ _ _ callee y c₁ _ _ found _ given finished =>
    obtain ⟨draft, rfl, within, -⟩ := m.find_own occurs found
    have isSome : c₁.draft.isSome := by
      rw [(given.grows tidy).draft.isSome_eq, within]
      rfl
    exact ⟨_, y, c₁, found, given, (finishCall_ok finished).1, finishCall_drafted isSome finished⟩

theorem started_returning (m : Making) : m.started.returning = m.returns := by
  obtain ⟨draft, within, -, -, returns, -⟩ := m.continues
  rw [Compiler.returning, within]
  exact returns

/-- What is known at the end of the body is what the procedure gives back. -/
theorem ended_returning (m : Making) (known : m.ended.returning = some type) :
    type = m.draft.finish.returns := by
  rw [Compiler.returning, m.drafted, Option.bind_some] at known
  rw [Draft.finish, known]
  rfl

/-- What a call of the procedure to itself relies on is what the procedure gives back. -/
theorem relied (m : Making) (occurs : Occurs (.block m.body) m.started offset task c)
    (made : Yields task c x c') (assumes : c'.assumed = some type) :
    type = m.draft.finish.returns := by
  have last := (occurs.history m.compiles made m.since).2.assumed type assumes
  rw [Compiler.assumed, m.drafted] at last
  exact m.assumed type last

/-- What is known at a place of what a procedure of declared type gives back is what it gives
back. -/
theorem declared_returning (m : Making) (declared : m.returns.isSome)
    (occurs : Occurs (.block m.body) m.started offset task c) (made : Yields task c x c')
    (known : c'.returning = some type) : type = m.draft.finish.returns := by
  obtain ⟨y, d', others, again, -, later⟩ := occurs.yields m.compiles m.since
  obtain ⟨rfl, rfl⟩ := again.unique made
  obtain ⟨draft, within, found⟩ := Option.bind_eq_some_iff.mp known
  obtain ⟨first, -, start, -, -, isDeclared⟩ := m.continues
  have kept := later.draft
  rw [within, m.drafted] at kept
  apply m.ended_returning
  rw [Compiler.returning, m.drafted]
  refine Draft.Continues.returns kept ?_ type found
  rw [← Draft.Continues.declared kept, start.declared, isDeclared, declared]

/-- Every call of the procedure to itself is taken to have a type. -/
theorem takes (m : Making)
    (occurs : Occurs (.block m.body) m.started offset (.node (.call m.name args) want) c) :
    ∃ type, (Task.block m.body).Takes m.started offset (.call m.name args) c type := by
  obtain ⟨x, c', made, -⟩ := occurs.encloses m.compiles m.since
  cases typed : x.type with
  | some type => exact ⟨type, .found occurs made typed⟩
  | none =>
    obtain ⟨callee, y, c₁, -, -, -, ⟨-, -, unwanted⟩ | ⟨type, -, given, -⟩⟩ :=
      m.call_cases occurs made
    · obtain rfl := unwanted typed
      cases occurs with
      | part outer part =>
        obtain ⟨z, d', around, -⟩ := outer.encloses m.compiles m.since
        obtain ⟨rfl, rfl,
            ⟨more, rfl⟩ | ⟨op, i, other, want, y, c₂, found, compares, rfl, right, known⟩⟩ :=
          part.of_open rfl around made typed
        · exact ⟨.void, .statement outer made typed⟩
        · exact ⟨found, .compared compares outer made typed right known⟩
    · rw [typed] at given
      cases given

/-- A call that is an operand is taken to have the type that the operand must have. -/
theorem takes_operand (m : Making) {role : Role}
    (occurs : Occurs (.block m.body) m.started offset (.operand (.call m.name args) type role) c) :
    (Task.block m.body).Takes m.started offset (.call m.name args) c type := by
  obtain ⟨x, c', made, -⟩ := occurs.encloses m.compiles m.since
  cases made with
  | operand inner expected =>
    have there := occurs.first .operand
    rcases (expect_ok expected).2 with ⟨typed, -⟩ | ⟨unknown, -⟩
    · exact .found there inner typed
    · obtain ⟨callee, y, c₁, -, -, -, ⟨-, -, unwanted⟩ | ⟨wanted, -, typed, -⟩⟩ :=
        m.call_cases there inner
      · cases unwanted unknown
      · rw [unknown] at typed
        cases typed

/-- A call of the procedure to itself is taken to give back what the procedure gives back in the
end. Only without a declared type it may be otherwise: then a return before the call decided the
type, and a return behind the call decided another one. -/
theorem takes_returns (m : Making)
    (occurs : Occurs (.block m.body) m.started offset (.node (.call m.name args) want) c)
    (made : Yields (.node (.call m.name args) want) c x c')
    (takes : (Task.block m.body).Takes m.started offset (.call m.name args) c type) :
    type = m.draft.finish.returns ∨ m.returns = none ∧
      (Task.block m.body).ReturnsBefore m.started (offset + x.code.size) type ∧
      (Task.block m.body).ReturnsFrom m.started (offset + x.code.size) m.draft.finish.returns := by
  cases takes with
  | @found want' x' d' _ occurs' made' typed =>
    obtain ⟨callee, y, c₁, found, given, code, outcome⟩ := m.call_cases occurs' made'
    obtain ⟨callee', y', c₁', found', given', code', -⟩ := m.call_cases occurs made
    obtain rfl : callee' = callee := (Prod.mk.inj (Except.ok.inj (found'.symm.trans found))).1
    obtain ⟨rfl, rfl⟩ := given'.unique given
    obtain same : x'.code = x.code := code.trans code'.symm
    have shorter : y'.code.size ≤ x.code.size := by
      rw [code', Fragment.size_append]
      exact Nat.le_add_right _ _
    rcases outcome with ⟨known, rfl, -⟩ | ⟨wanted, -, typed', assumes⟩
    · rw [typed] at known
      by_cases declared : m.returns.isSome
      · exact .inl (m.declared_returning declared (occurs'.first (.call found)) given known.symm)
      · rw [Option.not_isSome_iff_eq_none] at declared
        rcases ((occurs'.first (.call found)).learned m.compiles given m.since).returning
          type known.symm with start | relied | ⟨before, less, returns⟩
        · rw [m.started_returning, declared] at start
          cases start
        · exact .inl (m.relied occurs' made' relied)
        · rcases (occurs'.history m.compiles made' m.since).2.kept type known.symm
            with last | ⟨other, last, behind⟩
          · exact .inl (m.ended_returning last)
          · rw [← m.ended_returning last, ← same]
            exact .inr ⟨declared, ⟨before, by rw [same]; omega, returns⟩, behind⟩
    · obtain rfl := Option.some.inj (typed.symm.trans typed')
      exact .inl (m.relied occurs' made' (assumeReturn_assumed assumes).1)
  | statement occurs' made' unknown =>
    obtain ⟨y, d', around, -⟩ := occurs'.encloses m.compiles m.since
    cases around with
    | moreStatements first finished rest =>
      obtain ⟨rfl, rfl⟩ := made'.unique first
      have assumes := finishStatement_call unknown finished
      exact .inl
        (m.relied occurs' (.moreStatements first finished rest) (rest.learns.assumed _ assumes))
  | compared compares occurs' made' unknown right typed =>
    obtain ⟨y, d', around, -⟩ := occurs'.encloses m.compiles m.since
    have whole := around
    cases around with
    | comparison _ left _ right' _ agreed =>
      obtain ⟨rfl, rfl⟩ := made'.unique left
      rw [unknown] at agreed right'
      obtain ⟨rfl, rfl⟩ := right.unique right'
      obtain ⟨found, known, settled⟩ := agree_open agreed
      obtain rfl := Option.some.inj (typed.symm.trans known)
      exact .inl (m.relied occurs' whole (settle_call settled))
    | _ => cases compares

end Making

/-- Every definition of a unit that compiles makes a procedure, which the name belongs to from then
on. -/
theorem Yields.made {nodes : List Node} {c c' : Compiler} {x : Compiled}
    (derivation : Yields (.statements nodes) c x c') (ready : c.Ready) {name : String}
    {params : List Param} {returns : Option Ty} {body : List Node}
    (defined : .define name params returns body ∈ nodes) :
    ∃ (m : Making) (place : Nat), m.definition = .define name params returns body ∧
      Occurs (.statements nodes) c place (.node m.definition none) m.before ∧
      c'.procedure? name = some m.draft.finish := by
  induction nodes generalizing c x with
  | nil => cases defined
  | cons n more ih =>
    cases derivation with
    | @moreStatements _ _ _ _ _ _ c₂ _ _ first finished rest =>
      have between : c₂.Ready := ready.yields (.moreStatements first finished .noStatements)
      rcases List.mem_cons.mp defined with rfl | later
      · obtain ⟨m, same, rfl, -, procedures, -⟩ := first.making ready
        refine ⟨m, 0, same, same ▸ .of_part .firstStatement,
          (rest.grows between.tidy).procedure? ?_⟩
        obtain rfl : m.name = name := (Node.define.inj same).1
        have kept : c₂.procedures = _ := (finishStatement_steady finished).procedures
        exact m.procedure? (kept.trans procedures)
      · obtain ⟨m, place, same, occurs, known⟩ := ih rest between later
        exact ⟨m, _, same, (Occurs.of_part (.moreStatements first finished)).trans occurs, known⟩

namespace Compiler

/-- When a unit compiles, every call of a procedure of the unit to itself was taken to have some
type, which is the type that the finished procedure gives back; only where no type is declared may
it be that a return before the call gives back the one, and a return behind the call the other. -/
theorem Reached.self_calls_typed {hosts : List (String × Signature)} {c c' : Compiler}
    {program : Program} {code : Bytecode} (reached : Reached hosts c)
    (done : c.compile program = .ok (code, c')) {name : String} {params : List Param}
    {returns : Option Ty} {body : List Node}
    (defined : .define name params returns body ∈ program) :
    ∃ (m : Making) (place : Nat), m.definition = .define name params returns body ∧
      Occurs (.statements program) c place (.node m.definition none) m.before ∧
      c'.procedure? name = some m.draft.finish ∧
      ∀ offset args want d,
        Occurs (.block body) m.started offset (.node (.call name args) want) d →
        ∃ x d', Yields (.node (.call name args) want) d x d' ∧
          (∃ type, (Task.block body).Takes m.started offset (.call name args) d type) ∧
          ∀ type, (Task.block body).Takes m.started offset (.call name args) d type →
            type = m.draft.finish.returns ∨ returns = none ∧
              (Task.block body).ReturnsBefore m.started (offset + x.code.size) type ∧
              (Task.block body).ReturnsFrom m.started (offset + x.code.size)
              m.draft.finish.returns := by
  obtain ⟨top, derivation, -⟩ := compile_ok done
  obtain ⟨m, place, same, occurs, known⟩ := derivation.made reached.ready defined
  obtain ⟨rfl, rfl, rfl, rfl⟩ := Node.define.inj same
  refine ⟨m, place, rfl, occurs, known, fun offset args want d there => ?_⟩
  obtain ⟨x, d', made, -⟩ := there.encloses m.compiles m.since
  exact ⟨x, d', made, m.takes there, fun type takes => m.takes_returns there made takes⟩

/-- A procedure that gives back a number before it calls itself and a string behind: the call is
taken to give back a number, but the finished procedure gives back strings. -/
theorem self_calls_typed_otherwise :
    let body : List Node := [.branch (.var "c") [.giveBack (some (.literal (.number .one)))] none,
      .unary .negate (.call "p" [.literal (.boolean true)]),
      .giveBack (some (.literal (.string "a")))]
    let program : Program := [.define "p" [⟨"c", some .boolean⟩] none body]
    ∃ (code : Bytecode) (c' : Compiler) (m : Making) (offset : Nat) (d : Compiler) (x : Compiled),
      (new []).compile program = .ok (code, c') ∧ c'.procedure? "p" = some m.draft.finish ∧
        m.draft.finish.returns = .string ∧
        (Task.block body).Takes m.started offset (.call "p" [.literal (.boolean true)]) d .number ∧
        (Task.block body).ReturnsBefore m.started (offset + x.code.size) .number ∧
        (Task.block body).ReturnsFrom m.started (offset + x.code.size) .string := by
  intro body program
  have final : ((new []).compile program).toOption.any
      (fun made => decide ((made.2.procedure? "p").map (·.returns) = some .string)) = true := by
    decide +kernel
  cases done : (new []).compile program with
  | error fault => simp [done, Except.toOption] at final
  | ok found =>
    obtain ⟨code, c'⟩ := found
    obtain ⟨m, place, same, -, known, law⟩ :=
      Reached.new.self_calls_typed done (List.mem_singleton.mpr rfl)
    have string : m.draft.finish.returns = .string := by
      simpa [done, Except.toOption, known] using final
    obtain ⟨named, -, -, bodied⟩ := Node.define.inj same
    obtain ⟨inner, ended, compiles⟩ : ∃ inner ended, Yields (.block body) m.started inner ended :=
      ⟨_, _, bodied ▸ m.compiles⟩
    obtain ⟨offset, d, operand⟩ : ∃ offset d, Occurs (.block body) m.started offset
        (.operand (.call "p" [.literal (.boolean true)]) .number .negation) d := by
      simp only [body] at compiles
      cases compiles with
      | block statements => cases statements with
        | moreStatements first finished rest =>
          exact ⟨_, _, (((Occurs.of_part .block).part (.moreStatements first finished)).first
            .firstStatement).first .unary⟩
    have takes : (Task.block body).Takes m.started offset (.call "p" [.literal (.boolean true)]) d
        .number := by
      rw [← bodied, ← named] at operand ⊢
      exact m.takes_operand operand
    obtain ⟨x, d', -, -, outcome⟩ := law offset _ _ d (operand.first .operand)
    rw [string] at outcome
    rcases outcome .number takes with impossible | ⟨-, before, behind⟩
    · cases impossible
    · exact ⟨code, c', m, offset, d, x, rfl, known, string, takes, before, behind⟩

end Compiler

end Primer
