import Primer.Proofs.Compilation.Lending

/-!
How the type that a procedure gives back is found while its body is compiled. Without a declared
type each return decides anew, and a call of the procedure to itself that comes before any return
relies on the type that is wanted there. What is relied on never changes; what a return decided
holds until another return comes.
-/

set_option autoImplicit false
set_option relaxedAutoImplicit false

namespace Primer

open Compile

namespace Compiler

/-- What the procedure being compiled is known to give back. -/
def returning (c : Compiler) : Option Ty := c.draft.bind (·.returns)

/-- What calls of the procedure being compiled to itself rely on. -/
def assumed (c : Compiler) : Option Ty := c.draft.bind (·.assumed)

/-- What was found out about the type given back between two states, when some types were given back
in between. -/
structure Learns (given : Ty → Prop) (before after : Compiler) : Prop where
  assumed : ∀ type, before.assumed = some type → after.assumed = some type
  returning : ∀ type, after.returning = some type →
    before.returning = some type ∨ after.assumed = some type ∨ given type
  kept : ∀ type, before.returning = some type →
    after.returning = some type ∨ ∃ other, after.returning = some other ∧ given other

namespace Learns

variable {given other : Ty → Prop} {c c₁ c' : Compiler}

theorem of_eq (returning : c'.returning = c.returning) (assumed : c'.assumed = c.assumed) :
    Learns given c c' :=
  ⟨fun _ known => assumed.trans known, fun _ known => .inl (returning.symm.trans known),
    fun _ known => .inl (returning.trans known)⟩

theorem of_draft (same : c'.draft = c.draft) : Learns given c c' :=
  of_eq (by rw [Compiler.returning, same, Compiler.returning])
    (by rw [Compiler.assumed, same, Compiler.assumed])

theorem refl (c : Compiler) : Learns given c c := of_draft rfl

theorem mono (learns : Learns given c c') (more : ∀ type, given type → other type) :
    Learns other c c' :=
  ⟨learns.assumed,
    fun type known => (learns.returning type known).imp_right (.imp_right (more type)),
    fun type known => (learns.kept type known).imp_right
      fun ⟨later, found, gave⟩ => ⟨later, found, more later gave⟩⟩

theorem trans (one : Learns given c c₁) (two : Learns given c₁ c') : Learns given c c' where
  assumed type known := two.assumed type (one.assumed type known)
  returning type known := by
    rcases two.returning type known with between | later
    · exact (one.returning type between).imp_right (.imp_left (two.assumed type))
    · exact .inr later
  kept type known := by
    rcases one.kept type known with between | ⟨later, between, gave⟩
    · exact two.kept type between
    · rcases two.kept later between with last | last
      · exact .inr ⟨later, last, gave⟩
      · exact .inr last

/-- Only the drafts matter. -/
theorem congr {e e' : Compiler} (learns : Learns given c c') (before : e.draft = c.draft)
    (after : e'.draft = c'.draft) : Learns given e e' :=
  ((of_draft before.symm).trans learns).trans (of_draft after)

end Learns

end Compiler

open Compiler

namespace Compile

variable {given : Ty → Prop} {c c₁ c' : Compiler}

theorem resolveParam_learns {position : Nat} {type : Ty}
    (done : resolveParam position type c = .ok ((), c')) : Learns given c c' := by
  have now := resolveParam_draft done
  cases inside : c.draft with
  | none => exact .of_draft (by rw [now, inside, Option.map_none])
  | some draft =>
    exact .of_eq (by simp [returning, now, inside, Draft.resolve])
      (by simp [assumed, now, inside, Draft.resolve])

/-- What is relied on from now on was not relied on to be something else. -/
theorem assumeReturn_assumed {type : Ty} (done : assumeReturn type c = .ok ((), c')) :
    c'.assumed = some type ∧ ∀ other, c.assumed = some other → other = type := by
  have after := assumeReturn_draft done
  simp only [assumeReturn, get_bind] at done
  cases inside : c.draft with
  | none => simp [inside] at done
  | some draft =>
    refine ⟨by rw [Compiler.assumed, after, inside]; rfl, fun other known => ?_⟩
    rw [Compiler.assumed, inside, Option.bind_some] at known
    apply Decidable.byContradiction
    intro differs
    simp [inside, known, differs] at done

theorem assumeReturn_learns {type : Ty} (done : assumeReturn type c = .ok ((), c')) :
    Learns given c c' := by
  obtain ⟨now, before⟩ := assumeReturn_assumed done
  have returns : c'.returning = c.draft.map (·.returns.getD type) := by
    rw [Compiler.returning, assumeReturn_draft done]
    cases c.draft <;> rfl
  refine ⟨fun other known => before other known ▸ now, fun other known => ?_,
    fun other known => .inl ?_⟩
  · rw [returns] at known
    rw [now, Compiler.returning]
    obtain ⟨draft, inside, rfl⟩ := Option.map_eq_some_iff.mp known
    rw [inside, Option.bind_some]
    cases draft.returns with
    | none => exact .inr (.inl rfl)
    | some found => exact .inl rfl
  · obtain ⟨draft, inside, found⟩ := Option.bind_eq_some_iff.mp known
    rw [returns, inside, Option.map_some, found]
    rfl

theorem Assumes.learns (assumes : Assumes c c') : Learns given c c' := by
  rcases assumes with rfl | ⟨type, assumed⟩
  · exact .refl _
  · exact assumeReturn_learns assumed

theorem settle_learns {n : Node} {type : Ty} (done : settle n type c = .ok ((), c')) :
    Learns given c c' := by
  simp only [settle, get_bind] at done
  cases n with
  | var name =>
    cases found : c.paramIndex? name with
    | none => simp [found] at done
    | some position =>
      simp only [found] at done
      exact resolveParam_learns done
  | call name args =>
    by_cases drafting : c.drafting name
    · simp only [drafting, if_true] at done
      exact assumeReturn_learns done
    · simp [drafting] at done
  | _ => simp at done

theorem expect_learns {n : Node} {found : Option Ty} {want : Ty} {role : Role}
    (done : expect n found want role c = .ok ((), c')) : Learns given c c' := by
  rcases (expect_ok done).2 with ⟨-, rfl⟩ | ⟨-, settled⟩
  · exact .refl _
  · exact settle_learns settled

theorem agree_learns {op : BinaryOp} {a b : Node} {first second : Option Ty}
    (done : agree op a b first second c = .ok ((), c')) : Learns given c c' := by
  unfold agree at done
  cases first with
  | none =>
    cases second with
    | none => simp at done
    | some type => exact settle_learns done
  | some type =>
    cases second with
    | none => exact settle_learns done
    | some other =>
      by_cases same : type = other
      · simp only [same, if_true, pure_eq_ok, Prod.mk.injEq, true_and] at done
        exact done ▸ .refl _
      · simp [same] at done

theorem settleOpen_learns {p : Bool} {position : Nat} {type : Ty}
    (done : (if p then resolveParam position type else pure ()) c = .ok ((), c')) :
    Learns given c c' := by
  cases p with
  | true => exact resolveParam_learns done
  | false =>
    simp only [Bool.false_eq_true, if_false, pure_eq_ok, Prod.mk.injEq, true_and] at done
    exact done ▸ .refl _

theorem resultSlot_learns {slot : UInt8} (done : resultSlot c = .ok (slot, c')) :
    Learns given c c' := by
  rcases resultSlot_ok done with
    ⟨-, -, rfl⟩ | ⟨draft, -, -, rfl⟩ | ⟨draft, slots, inside, -, -, rfl⟩
  · exact .refl _
  · exact .refl _
  · have now := draft_resultSlot inside slots slot
    exact .of_eq (by simp [returning, now, inside]) (by simp [assumed, now, inside])

theorem reference_learns {name : String} {want : Option Ty} {x : Compiled}
    (done : reference name want c = .ok (x, c')) : Learns given c c' := by
  cases isParam : c.param? name with
  | some place =>
    rcases (reference_param isParam done).2 with ⟨-, rfl⟩ | ⟨-, type, -, -, resolved⟩
    · exact .refl _
    · exact resolveParam_learns resolved
  | none =>
    rcases reference_ok done with ⟨_, _, isParam', -⟩ | ⟨_, -, -, -, rfl⟩
    · rw [isParam] at isParam'; cases isParam'
    · exact .refl _

theorem finishStatement_learns {n : Node} {x : Compiled} {code : Fragment}
    (done : finishStatement n x c = .ok (code, c')) : Learns given c c' := by
  obtain ⟨type, between, assumes, -, ⟨-, -, rfl⟩ | ⟨slot, after, -, found, -, rfl⟩⟩ :=
    finishStatement_ok done
  · exact assumes.learns.congr rfl rfl
  · exact (assumes.learns.trans (resultSlot_learns found)).congr rfl rfl

theorem noteReturn_learns {draft : Draft} {type : Ty}
    (done : noteReturn draft type c = .ok ((), c')) (gives : given type) : Learns given c c' := by
  unfold noteReturn at done
  by_cases declared : draft.declared
  · by_cases same : draft.returns = some type
    · simp only [declared, same, ne_eq, not_true, if_true, if_false, pure_eq_ok, Prod.mk.injEq,
        true_and] at done
      exact done ▸ .refl _
    · simp [declared, same] at done
  · simp only [declared, Bool.false_eq_true, if_false, modifyDraft, modify_eq_ok, Prod.mk.injEq,
      true_and] at done
    have after : c'.draft = c.draft.map ({ · with returns := some type }) := by
      rw [done]
      exact draft_redraft fun _ => rfl
    cases inside : c.draft with
    | none => exact .of_draft (by rw [after, inside, Option.map_none])
    | some now =>
      rw [inside, Option.map_some] at after
      refine ⟨fun other known => by simpa [assumed, after, inside] using known,
        fun other known => ?_, fun other known => .inr ⟨type, by simp [returning, after], gives⟩⟩
      obtain rfl : type = other := by simpa [returning, after] using known
      exact .inr (.inr gives)

theorem scratch_draft {threshold counter : UInt8} (first : allocateScratch c = .ok (threshold, c₁))
    (second : allocateScratch c₁ = .ok (counter, c')) : c'.draft = c.draft := by
  obtain ⟨slots, -, rfl⟩ := allocateScratch_ok first
  obtain ⟨slots', -, rfl⟩ := allocateScratch_ok second
  rfl

end Compile

/-- A return in the task gives back a type; the offset is that of the instruction that returns. -/
def Task.ReturnsAt (task : Task) (start : Compiler) (offset : Nat) (type : Ty) : Prop :=
  ∃ (place : Nat) (value : Option Node) (want : Option Ty) (c : Compiler) (draft : Draft)
    (x : Compiled) (c' : Compiler), Occurs task start place (.node (.giveBack value) want) c ∧
      c.draft = some draft ∧ Yields (.givenBack draft value) c x c' ∧ x.type = some type ∧
      offset = place + x.code.size

/-- A return before an offset gives back a type. -/
def Task.ReturnsBefore (task : Task) (start : Compiler) (bound : Nat) (type : Ty) : Prop :=
  ∃ offset, offset < bound ∧ task.ReturnsAt start offset type

/-- A return from an offset on gives back a type. -/
def Task.ReturnsFrom (task : Task) (start : Compiler) (bound : Nat) (type : Ty) : Prop :=
  ∃ offset, bound ≤ offset ∧ task.ReturnsAt start offset type

namespace Task.ReturnsAt

variable {whole task : Task} {start before c c' : Compiler} {x : Compiled} {offset place : Nat}
  {others : List UInt8} {type : Ty}

theorem within (returns : task.ReturnsAt c place type) (occurs : Occurs whole start offset task c) :
    whole.ReturnsAt start (offset + place) type := by
  obtain ⟨inner, value, want, d, draft, y, d', inside, drafted, given, typed, rfl⟩ := returns
  exact ⟨offset + inner, value, want, d, draft, y, d', occurs.trans inside, drafted, given, typed,
    (Nat.add_assoc _ _ _).symm⟩

/-- The instruction that returns is one of the task's code. -/
theorem lt_size (returns : task.ReturnsAt c offset type) (made : Yields task c x c')
    (since : before.Since c others) : offset < x.code.size := by
  obtain ⟨place, value, want, d, draft, y, d', inside, drafted, given, -, rfl⟩ := returns
  obtain ⟨z, e, node, encloses⟩ := inside.encloses made since
  have fits := encloses.le_size
  cases node with
  | giveBack drafted' given' =>
    obtain rfl := Option.some.inj (drafted.symm.trans drafted')
    obtain ⟨rfl, -⟩ := given.unique given'
    rw [Fragment.size_append, show Fragment.size [Instruction.ret] = 1 from rfl] at fits
    omega

end Task.ReturnsAt

/-- What a part learns from its returns the task learns from its own. -/
theorem Part.learns {task inner : Task} {c d e e' : Compiler} {rest : Nat}
    (part : Part task c rest inner d) (learns : Learns (inner.ReturnsFrom d 0) e e') :
    Learns (task.ReturnsFrom c 0) e e' := by
  refine learns.mono ?_
  rintro type ⟨offset, -, returns⟩
  exact ⟨rest + offset, Nat.zero_le _, returns.within (.of_part part)⟩

/-- What is learned while a task is compiled comes from its returns. -/
theorem Yields.learns {task : Task} {c c' : Compiler} {x : Compiled}
    (derivation : Yields task c x c') : Learns (task.ReturnsFrom c 0) c c' := by
  induction derivation with
  | literal | literals | initialDefault | giveNothing | noArguments | noItems | noStatements =>
    exact .refl _
  | unary _ operand => exact Part.unary.learns operand
  | arith left _ first second =>
    exact (Part.arithLeft.learns first).trans ((Part.arithRight left).learns second)
  | order left _ first second =>
    exact (Part.orderLeft.learns first).trans ((Part.orderRight left).learns second)
  | logic left _ first second =>
    exact (Part.logicLeft.learns first).trans ((Part.logicRight left).learns second)
  | comparison compares left _ _ _ agreed first second =>
    exact (((Part.comparisonLeft compares).learns first).trans
      ((Part.comparisonRight compares left).learns second)).trans (agree_learns agreed)
  | result _ found => exact resultSlot_learns found
  | var found => exact reference_learns found
  | declare _ allocated _ _ start =>
    obtain ⟨slots, -, rfl⟩ := allocate_ok allocated
    exact ((Part.declare allocated).learns start).congr rfl rfl
  | assignParam isParam _ _ resolved value =>
    exact ((Part.assignParam isParam).learns value).trans (settleOpen_learns resolved)
  | assignVariable noParam isVariable _ value =>
    exact (Part.assignVariable noParam isVariable).learns value
  | branch test _ condition inner =>
    exact (Part.branchTest.learns condition).trans ((Part.branchBody test).learns inner)
  | alternative test body _ condition inner otherwise =>
    exact ((Part.branchTest.learns condition).trans ((Part.branchBody test).learns inner)).trans
      ((Part.branchOther test body).learns otherwise)
  | loop test _ condition inner =>
    exact (Part.loopTest.learns condition).trans ((Part.loopBody test).learns inner)
  | times count first second _ amount inner =>
    exact (((Part.timesCount.learns amount).congr rfl (scratch_draft first second)).trans
      ((Part.timesBody count first second).learns inner)).congr rfl rfl
  | call found _ _ finished given =>
    exact ((Part.call found).learns given).trans (finishCall_ok finished).2.2.learns
  | define started _ finished =>
    obtain ⟨outside, -⟩ := startDraft_ok started
    obtain ⟨draft, -, -, -, -, rfl⟩ := finishDraft_ok finished
    exact .of_draft (draft_outside outside).symm
  | convert _ _ _ _ value => exact Part.convert.learns value
  | giveBack inside given typed noted value =>
    refine ((Part.giveBack inside).learns value).trans (noteReturn_learns noted ?_)
    exact ⟨_, Nat.zero_le _, 0, _, _, _, _, _, _, .here, inside, given, typed, rfl⟩
  | list mixed _ _ items => exact (Part.list mixed).learns items
  | item _ list _ items place =>
    exact (Part.itemList.learns items).trans ((Part.itemIndex list).learns place)
  | setItem list _ index _ items place value =>
    exact ((Part.setItemList.learns items).trans ((Part.setItemIndex list).learns place)).trans
      ((Part.setItemValue list index).learns value)
  | operand _ expected node => exact (Part.operand.learns node).trans (expect_learns expected)
  | valueOf _ expected _ node => exact (Part.value.learns node).trans (expect_learns expected)
  | valueFound _ _ _ node => exact Part.value.learns node
  | initialValue _ value => exact Part.initial.learns value
  | giveDeclared declared _ value => exact (Part.giveDeclared declared).learns value
  | giveFound undeclared _ _ _ node => exact (Part.giveFound undeclared).learns node
  | moreArguments wanted argument typed resolved _ first rest =>
    exact (((Part.firstArgument wanted).learns first).trans (settleOpen_learns resolved)).trans
      ((Part.moreArguments wanted argument typed resolved).learns rest)
  | moreItems item _ first rest =>
    exact (Part.firstItem.learns first).trans ((Part.moreItems item).learns rest)
  | moreStatements statement finished _ first rest =>
    exact ((Part.firstStatement.learns first).trans (finishStatement_learns finished)).trans
      ((Part.moreStatements statement finished).learns rest)
  | block _ inner => exact (Part.block.learns inner).congr rfl rfl

theorem Interlude.learns {given : Ty → Prop} {c c' : Compiler} (done : Interlude c c') :
    Learns given c c' := by
  cases done with
  | lexical => exact .of_draft rfl
  | agree done => exact agree_learns done
  | expect done => exact expect_learns done
  | resolve done => exact settleOpen_learns done
  | call done => exact (finishCall_ok done).2.2.learns
  | statement done => exact finishStatement_learns done

/-- What is learned in the course of a task comes from returns at the places that it comes
through. -/
theorem Task.Proceeds.learns {task : Task} {start c d e : Compiler} {place : Nat → Nat → Prop}
    {given : Ty → Prop} {others : List UInt8} (proceeds : task.Proceeds c place d e)
    (since : start.Since c others)
    (gives : ∀ {first last offset : Nat} {type : Ty}, place first last → first ≤ offset →
      offset < last → task.ReturnsAt c offset type → given type) : Learns given d e := by
  induction proceeds with
  | refl => exact .refl _
  | trans _ _ one two => exact one.trans two
  | between done => exact done.learns
  | part part _ made lies =>
    refine made.learns.mono ?_
    rintro type ⟨offset, -, returns⟩
    obtain ⟨others', since'⟩ := part.since since
    have inside := returns.lt_size made since'
    exact gives lies (Nat.le_add_right _ offset) (by omega) (returns.within (.of_part part))
  | noted returns inside _ given typed noted lies =>
    subst returns
    refine noteReturn_learns noted (gives lies (Nat.le_refl _) (Nat.lt_succ_self _) ?_)
    exact ⟨0, _, _, _, _, _, _, .here, inside, given, typed, (Nat.zero_add _).symm⟩

/-- What was learned when a part starts comes from returns before it, and what is learned after it
from returns behind it. -/
theorem Part.history {task inner : Task} {start c d c' d' : Compiler} {x y : Compiled} {rest : Nat}
    {others : List UInt8} (part : Part task c rest inner d) (derivation : Yields task c x c')
    (made : Yields inner d y d') (since : start.Since c others) :
    Learns (task.ReturnsBefore c rest) c d ∧
      Learns (task.ReturnsFrom c (rest + y.code.size)) d' c' := by
  obtain ⟨_, _, surrounded⟩ := part.surrounded derivation since.tidy
  obtain ⟨rfl, rfl⟩ := made.unique surrounded.made
  constructor
  · apply surrounded.before.learns since
    intro first last offset type ends _ less returns
    exact ⟨offset, by omega, returns⟩
  · apply surrounded.behind.learns since
    intro first last offset type starts more _ returns
    exact ⟨offset, by omega, returns⟩

/-- What was learned when a place in a task is reached comes from returns before it, and what is
learned after it from returns behind it. -/
theorem Occurs.history {whole task : Task} {start c d c' d' : Compiler} {x y : Compiled}
    {offset : Nat}
    {others : List UInt8} (occurs : Occurs whole c offset task d) (derivation : Yields whole c x c')
    (made : Yields task d y d') (since : start.Since c others) :
    Learns (whole.ReturnsBefore c offset) c d ∧
      Learns (whole.ReturnsFrom c (offset + y.code.size)) d' c' := by
  induction occurs generalizing y d' with
  | here =>
    obtain ⟨rfl, rfl⟩ := made.unique derivation
    exact ⟨.refl _, .refl _⟩
  | @part offset rest task inner e d outer part ih =>
    obtain ⟨z, e', node, -⟩ := outer.encloses derivation since
    obtain ⟨others', since'⟩ := outer.since since
    have fits := (part.encloses node since'.tidy made).le_size
    obtain ⟨before, behind⟩ := ih node
    obtain ⟨before', behind'⟩ := part.history node made since'
    refine ⟨(before.mono ?_).trans (before'.mono ?_), (behind'.mono ?_).trans (behind.mono ?_)⟩
    · rintro type ⟨o, less, returns⟩
      exact ⟨o, by omega, returns⟩
    · rintro type ⟨o, less, returns⟩
      exact ⟨offset + o, by omega, returns.within outer⟩
    · rintro type ⟨o, more, returns⟩
      exact ⟨offset + o, by omega, returns.within outer⟩
    · rintro type ⟨o, more, returns⟩
      exact ⟨o, by omega, returns⟩

/-- What was learned when the code of a place in a task is made comes from returns before its
end. -/
theorem Occurs.learned {whole task : Task} {start c d c' d' : Compiler} {x y : Compiled}
    {offset : Nat}
    {others : List UInt8} (occurs : Occurs whole c offset task d) (derivation : Yields whole c x c')
    (made : Yields task d y d') (since : start.Since c others) :
    Learns (whole.ReturnsBefore c (offset + y.code.size)) c d' := by
  obtain ⟨others', since'⟩ := occurs.since since
  refine ((occurs.history derivation made since).1.mono ?_).trans (made.learns.mono ?_)
  · rintro type ⟨o, less, returns⟩
    exact ⟨o, by omega, returns⟩
  · rintro type ⟨o, -, returns⟩
    have := returns.lt_size made since'
    exact ⟨offset + o, by omega, returns.within occurs⟩

end Primer
