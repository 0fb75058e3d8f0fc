import Primer.Proofs.Compilation.Declarations

/-!
Slots that are claimed inside a statement. A declaration claims the slot of its variable for the
block that it is a statement of, and a counted loop claims two slots for itself. The code of the
block or the loop frees the slot once, where the scope ends, and does not free it in between.
-/

set_option autoImplicit false
set_option relaxedAutoImplicit false

namespace Primer

open Compile Compiler Fragment

theorem Fragment.free_mem_shift {code : Fragment} {slot : UInt8} {distance : Nat} :
    .free slot ∈ shift code distance ↔ .free slot ∈ code := by
  have plain {code : Fragment} : .free slot ∈ code ↔ .free slot ∈ code.plain := by
    rw [mem_plain]
    exact (and_iff_left rfl).symm
  rw [plain, plain_shift, ← plain]

/-- Behind the test whether there is a round, a counted loop frees nothing but what its body
frees. -/
theorem Fragment.countedLoop_split (count : Fragment) (threshold counter : UInt8)
    (body : Fragment) :
    ∃ skip between, countedLoop count threshold counter body =
        counted count ++ [Instruction.jumpIf skip] ++ between ∧
      ∀ {slot : UInt8}, .free slot ∈ between → .free slot ∈ body := by
  refine ⟨_, _, by simp only [countedLoop, counted, List.append_assoc]; rfl, fun freed => ?_⟩
  simpa [free_mem_shift] using freed

theorem Scope.mem_slots_addScratch {scope : Scope} {slot other : UInt8} :
    other ∈ (scope.addScratch slot).slots ↔ other = slot ∨ other ∈ scope.slots := by
  simp only [slots, addScratch, List.map_append, List.map_cons, List.map_nil, List.mem_append,
    List.mem_singleton]
  exact or_assoc.symm.trans or_comm

/-- A slot of a scope is freed once where the scope is left. -/
theorem Scope.Opened.count_leave {outer inner : Scope} {new : List (String × Variable)}
    {extra : List (UInt8 × Nat)} (opened : Opened outer inner new extra) (tidy : outer.Tidy)
    (distinct : inner.slots.Nodup) {slot : UInt8}
    (own : slot ∈ new.map (·.2.slot) ++ extra.map (·.1)) : inner.leave.1.count slot = 1 := by
  have part : (new.map (·.2.slot) ++ extra.map (·.1)).Sublist inner.slots := by
    rw [slots, opened.bindings, opened.scratch, List.map_append, List.map_append]
    exact (List.sublist_append_left _ _).append (List.sublist_append_right _ _)
  rw [(opened.leave_slots tidy).count_eq, (distinct.sublist part).count, if_pos own]

namespace Compiler.Since

variable {start c : Compiler} {others : List UInt8} {slot : UInt8}

/-- With nothing in use at the start, a state needs to be in order itself. -/
theorem of_accounts (tidy : c.scope.Tidy) (accounts : c.slots.Accounts (others ++ c.owned)) :
    Since (new []) c others :=
  ⟨tidy, accounts, List.nil_subset _, fun _ _ => .inr List.not_mem_nil,
    fun _ _ _ _ => List.not_mem_nil⟩

theorem distinct (since : Since start c others) : c.scope.slots.Nodup := by
  have all := (List.nodup_append.mp since.accounts.distinct).1
  exact (List.nodup_append.mp (List.nodup_append.mp all).2.1).1

/-- A slot that is in use, though nothing in the state has it yet, may count as one of the start. -/
theorem held (since : Since start c others) (held : slot ∈ others) :
    Since { start with scope := start.scope.addScratch slot } c others := by
  have grown {other : UInt8} :
      other ∈ Compiler.owned { start with scope := start.scope.addScratch slot } ↔
        other = slot ∨ other ∈ start.owned := by
    simp only [owned, List.mem_append, Scope.mem_slots_addScratch, or_assoc]
    rfl
  have apart {other : UInt8} (own : other ∈ c.owned) : other ≠ slot := by
    have all := (List.nodup_append.mp since.accounts.distinct).1
    exact fun same => (List.nodup_append.mp all).2.2 slot held other own same.symm
  refine ⟨since.tidy, since.accounts, fun other used => ?_, fun binding member => ?_,
    fun draft inside other own used => ?_⟩
  · rcases grown.mp used with rfl | old
    · exact List.mem_append_left _ held
    · exact since.used old
  · refine (since.bindings binding member).imp_right fun fresh used => ?_
    rcases grown.mp used with same | old
    · exact apart (List.mem_append_left _ (List.mem_append_left _ (List.mem_map_of_mem member)))
        same
    · exact fresh old
  · rcases grown.mp used with same | old
    · refine apart (List.mem_append_right _ (List.mem_append_left _ ?_)) same
      rw [inside]
      exact own
    · exact since.draft draft inside other own old

end Compiler.Since

/-- A task claims a slot itself: a declaration for its variable, and a counted loop for the count
and for the rounds. So much of its code stands in front of the claim, which is made in the last of
the states. -/
inductive Task.Claims : Task → Compiler → Nat → UInt8 → Compiler → Prop
  | declared {name type value want c slot c₁} (allocated : allocate c = .ok (slot, c₁)) :
      Claims (.node (.declare name type value) want) c 0 slot c
  | threshold {count body want c x c₁ slot c₂}
      (amount : Yields (.operand count .number .repeatCount) { c with scope := c.scope.enter } x c₁)
      (first : allocateScratch c₁ = .ok (slot, c₂)) :
      Claims (.node (.times count body) want) c (size (counted x.code) + jumpSize) slot c₁
  | counter {count body want c x c₁ threshold c₂ slot c₃}
      (amount : Yields (.operand count .number .repeatCount) { c with scope := c.scope.enter } x c₁)
      (first : allocateScratch c₁ = .ok (threshold, c₂))
      (second : allocateScratch c₂ = .ok (slot, c₃)) :
      Claims (.node (.times count body) want) c (size (counted x.code) + jumpSize) slot c₂

/-- A slot is claimed at an offset of the code of a task, in a state that the compiler comes to. -/
def Task.ClaimsAt (task : Task) (c : Compiler) (place : Nat) (slot : UInt8) (asked : Compiler) :
    Prop :=
  ∃ offset inner d distance, Occurs task c offset inner d ∧ inner.Claims d distance slot asked ∧
    place = offset + distance

/-- A block or a counted loop, the code of what stands in its scope, and the state that the scope is
left in. -/
inductive Task.Spans : Task → Compiler → Fragment → Compiler → Prop
  | block {nodes c x last} (inner : Yields (.statements nodes) c.entered x last) :
      Spans (.block nodes) c x.code last
  | times {count body want c x c₁ threshold c₂ counter c₃ y last}
      (amount : Yields (.operand count .number .repeatCount) { c with scope := c.scope.enter } x c₁)
      (first : allocateScratch c₁ = .ok (threshold, c₂))
      (second : allocateScratch c₂ = .ok (counter, c₃)) (inner : Yields (.block body) c₃ y last) :
      Spans (.node (.times count body) want) c (countedLoop x.code threshold counter y.code) last

/-- From a place on, the code in a scope does not free the slot, and where the scope is left it is
freed once. -/
def Fragment.FreedOnce (code : Fragment) (place : Nat) (slot : UInt8) (last : Compiler) : Prop :=
  ∃ before between, code = before ++ between ∧ size before = place ∧ .free slot ∉ between ∧
    last.scope.leave.1.count slot = 1

/-- A slot that is claimed at a place of the code of a task is freed once, where the scope ends that
the claim is made in: the scope is open at the claim, and no other one inside it is. -/
def Task.FreesAtEnd (task : Task) (c : Compiler) (code : Fragment) (place : Nat) (slot : UInt8)
    (asked : Compiler) : Prop :=
  ∃ outer inner scope e body last, place = outer + inner ∧ Occurs task c outer scope e ∧
    scope.ClaimsAt e inner slot asked ∧ asked.scope.depth = e.scope.depth + 1 ∧
    scope.Spans e body last ∧ code.Encloses (body ++ last.frees) outer ∧
    body.FreedOnce inner slot last

/-- The statements that remain, the offset of their code, and the state that they start in. -/
inductive Remains (nodes : List Node) (start : Compiler) : Nat → List Node → Compiler → Prop
  | all : Remains nodes start 0 nodes start
  | more {offset n more c x c₁ code c₂} (before : Remains nodes start offset (n :: more) c)
      (first : Yields (.node n none) c x c₁) (finished : finishStatement n x c₁ = .ok (code, c₂)) :
      Remains nodes start (offset + code.size) more c₂

variable {start c c' d d₁ e last : Compiler} {others : List UInt8} {x z : Compiled} {slot : UInt8}
variable {nodes rest more : List Node} {n : Node} {place : Nat}

namespace Remains

theorem occurs (remains : Remains nodes c place rest d) :
    Occurs (.statements nodes) c place (.statements rest) d := by
  induction remains with
  | all => exact .here
  | more _ first finished ih => exact ih.part (.moreStatements first finished)

theorem depth (remains : Remains nodes c place rest d) (tidy : c.scope.Tidy) :
    d.scope.depth = c.scope.depth ∧ d.scope.Tidy := by
  induction remains with
  | all => exact ⟨rfl, tidy⟩
  | more _ first finished ih =>
    have grows := (first.grows ih.2).trans (finishStatement_steady finished).grows.of_prior
    exact ⟨grows.depth.trans ih.1, grows.tidy ih.2⟩

/-- The code of the statements that remain stands at its offset, at the end. -/
theorem code_eq (remains : Remains nodes c place rest d)
    (derivation : Yields (.statements nodes) c z last) :
    ∃ before y, z.code = before ++ shift y.code place ∧ size before = place ∧
      Yields (.statements rest) d y last := by
  induction remains with
  | all => exact ⟨[], z, by simp, rfl, derivation⟩
  | more _ first finished ih =>
    obtain ⟨before, y, coded, sized, yields⟩ := ih
    cases yields with
    | moreStatements first' finished' rest =>
      obtain ⟨rfl, rfl⟩ := first.unique first'
      rw [finished] at finished'
      cases finished'
      exact ⟨_, _, by rw [coded, shift_append, shift_shift, ← List.append_assoc, Nat.add_comm],
        by rw [size_append, size_shift, sized], rest⟩

/-- What is declared in a block and visible at some place of it is freed once where the block
ends. -/
theorem count_leave (remains : Remains nodes c.entered place rest d)
    (derivation : Yields (.statements nodes) c.entered z last) (since : Since start c others)
    {binding : String × Variable} (visible : binding ∈ d.scope.bindings)
    (own : binding.2.depth = c.scope.depth + 1) : last.scope.leave.1.count binding.2.slot = 1 := by
  obtain ⟨-, tidy⟩ := remains.depth since.tidy.enter
  obtain ⟨-, y, -, -, yields⟩ := remains.code_eq derivation
  obtain ⟨later, kept, -⟩ := (yields.grows tidy).bindings
  obtain ⟨new, opened⟩ := (derivation.grows since.tidy.enter).opened
  have still : binding ∈ new ++ c.scope.bindings :=
    opened.bindings ▸ kept ▸ List.mem_append_right _ visible
  refine opened.count_leave since.tidy (since.entered.yields derivation).distinct
    (List.mem_append_left _ (List.mem_map_of_mem ?_))
  refine (List.mem_append.mp still).resolve_right fun old => ?_
  have := since.tidy.bindings binding old
  omega

/-- The slot that a declaration claims is freed once, where its block ends. -/
theorem freedOnce {name : String} {type : Option Ty} {value : Option Node}
    (remains : Remains nodes c.entered place (.declare name type value :: more) d)
    (derivation : Yields (.statements nodes) c.entered z last) (since : Since start c others)
    (allocated : allocate d = .ok (slot, d₁)) : z.code.FreedOnce place slot last := by
  obtain ⟨others', since'⟩ := remains.occurs.since since.entered
  obtain ⟨depth, -⟩ := remains.depth since.tidy.enter
  obtain ⟨before, y, coded, sized, yields⟩ := remains.code_eq derivation
  cases yields with
  | @moreStatements _ _ _ _ _ _ c₂ _ _ first finished later =>
    have behind := remains.more first finished
    obtain ⟨others'', since''⟩ := behind.occurs.since since.entered
    have scope := (finishStatement_steady finished).scope
    cases first with
    | @declare _ _ _ _ _ _ _ x c' found fresh allocated' initial typed =>
      rw [allocated] at allocated'
      cases allocated'
      obtain rfl := finishStatement_void finished rfl
      have steady : c'.scope = d.scope := by
        obtain ⟨slots, -, rfl⟩ := allocate_ok allocated
        exact ((initial.growth since'.tidy).2 trivial).scope
      have declared : (name, ⟨found, slot, d.scope.depth⟩) ∈ c₂.scope.bindings := by
        rw [show c₂.scope = _ from scope, steady]
        exact List.mem_cons_self
      refine ⟨before, _, coded, sized, ?_, behind.count_leave derivation since declared depth⟩
      -- While the value is computed no variable has the slot yet, and later its variable is
      -- visible.
      have early :=
        initial.free_notMem_of_owned ((since'.allocated allocated).2.held List.mem_cons_self)
          (List.mem_append_left _ (Scope.mem_slots_addScratch.mpr (.inl rfl)))
      have late := later.free_notMem since'' (List.mem_append_left _ (List.mem_map_of_mem declared))
      rw [free_mem_shift, List.mem_append, free_mem_shift, List.mem_append, List.mem_singleton]
      rintro ((inside | store) | inside)
      · exact early inside
      · cases store
      · exact late inside

end Remains

/-- The slots that a counted loop claims are freed once, where the loop ends. -/
theorem Yields.loop_freedOnce {count : Node} {body : List Node} {c₁ c₂ c₃ : Compiler} {y : Compiled}
    {threshold counter : UInt8} (since : Since start c others)
    (amount : Yields (.operand count .number .repeatCount) { c with scope := c.scope.enter } x c₁)
    (first : allocateScratch c₁ = .ok (threshold, c₂))
    (second : allocateScratch c₂ = .ok (counter, c₃))
    (inner : Yields (.block body) c₃ y last) (own : slot ∈ [threshold, counter]) :
    (countedLoop x.code threshold counter y.code).FreedOnce (size (counted x.code) + jumpSize) slot
      last := by
  have since₃ := (((since.enter.yields amount).scratch first).2.scratch second).2
  have opened := loop_opened since.tidy amount first second inner
  have visible : slot ∈ c₃.scope.slots := by
    obtain ⟨slots, -, rfl⟩ := allocateScratch_ok first
    obtain ⟨slots', -, rfl⟩ := allocateScratch_ok second
    simp only [List.mem_cons, List.not_mem_nil, or_false] at own
    exact Scope.mem_slots_addScratch.mpr (own.symm.imp_right fun same =>
      Scope.mem_slots_addScratch.mpr (.inl same))
  obtain ⟨skip, between, split, within⟩ := countedLoop_split x.code threshold counter y.code
  exact ⟨_, between, split, by simp, fun freed => inner.free_notMem since₃ visible (within freed),
    opened.count_leave since.tidy (since₃.yields inner).distinct own⟩

/-- In a task that is compiled, a declaration and a definition are no part of anything but a list of
statements, which is what a block holds. -/
theorem Part.quiet {task inner : Task} {offset : Nat} (part : Part task c offset inner d)
    (derivation : Yields task c x c') (asks : ∀ n role, task ≠ .operand n .void role) :
    inner.Quiet ∨ (∃ nodes, task = .statements nodes) ∨ ∃ nodes, task = .block nodes := by
  cases part with
  | firstStatement | moreStatements => exact .inr (.inl ⟨_, rfl⟩)
  | block => exact .inr (.inr ⟨_, rfl⟩)
  | unary => exact .inl (UnaryOp.type_ne_void _)
  | comparisonLeft compares => cases derivation with
    | comparison _ left filled => exact .inl (left.introduces_eq_false filled)
    | _ => cases compares
  | comparisonRight compares first => cases derivation with
    | comparison _ left _ right filled =>
      obtain ⟨rfl, rfl⟩ := first.unique left
      exact .inl (right.introduces_eq_false filled)
    | _ => cases compares
  | convert => cases derivation with
    | convert value typed filled =>
      exact .inl (value.introduces_eq_false (by rw [typed]; simpa using filled))
  | operand => cases derivation with
    | operand value expected =>
      refine .inl (value.introduces_eq_false (expected_value expected fun void => ?_))
      exact asks _ _ (by rw [void])
  | value => cases derivation with
    | valueOf value expected filled =>
      exact .inl (value.introduces_eq_false (expected_value expected filled))
    | valueFound value typed filled =>
      exact .inl (value.introduces_eq_false (by rw [typed]; simpa using filled))
  | giveFound => cases derivation with
    | giveDeclared declared => simp_all
    | giveFound _ value typed filled =>
      exact .inl (value.introduces_eq_false (by rw [typed]; simpa using filled))
  | _ => exact .inl (by simp [Task.Quiet])

/-- The place is at a statement of a block, or between its statements. -/
def InBlock (whole : Task) (c : Compiler) (place : Nat) (task : Task) (d : Compiler) : Prop :=
  ∃ outer nodes e inner rest, Occurs whole c outer (.block nodes) e ∧
    Remains nodes e.entered inner rest d ∧ place = outer + inner ∧
    (task = .statements rest ∨ ∃ n more, rest = n :: more ∧ task = .node n none)

theorem Occurs.quiet_or_inBlock {whole task : Task} (occurs : Occurs whole c place task d)
    (derivation : Yields whole c x c') (since : Since start c others) (quiet : whole.Quiet) :
    task.Quiet ∨ InBlock whole c place task d := by
  induction occurs with
  | here => exact .inl quiet
  | @part offset _ task _ c₁ _ outer part ih =>
    obtain ⟨_, _, _, yields, -⟩ := outer.yields derivation since
    have asks : ∀ n role, task ≠ .operand n .void role := by
      rintro n role rfl
      rcases ih with quiet | ⟨_, _, _, _, _, _, _, _, impossible | ⟨_, _, _, impossible⟩⟩
      · exact quiet rfl
      · cases impossible
      · cases impossible
    rcases part.quiet yields asks with quiet | ⟨nodes, rfl⟩ | ⟨nodes, rfl⟩
    · exact .inl quiet
    · obtain ⟨before, _, e, inside, _, around, remains, rfl, same | ⟨_, _, _, impossible⟩⟩ :=
        ih.resolve_left id
      · cases same
        cases part with
        | firstStatement =>
          exact .inr ⟨before, _, e, inside, _, around, remains, rfl, .inr ⟨_, _, rfl, rfl⟩⟩
        | moreStatements first finished =>
          exact .inr ⟨before, _, e, _, _, around, remains.more first finished, Nat.add_assoc _ _ _,
            .inl rfl⟩
      · cases impossible
    · cases part
      exact .inr ⟨offset, nodes, c₁, 0, nodes, outer, .all, rfl, .inl rfl⟩

/-- What a counted loop is made of, where it occurs. -/
theorem Occurs.loop {whole : Task} {want : Option Ty} {count : Node} {body : List Node}
    (occurs : Occurs whole c place (.node (.times count body) want) e)
    (derivation : Yields whole c x c') (since : Since start c others) :
    ∃ y c₁ threshold c₂ counter c₃ z last,
      Yields (.operand count .number .repeatCount) { e with scope := e.scope.enter } y c₁ ∧
      allocateScratch c₁ = .ok (threshold, c₂) ∧ allocateScratch c₂ = .ok (counter, c₃) ∧
      Yields (.block body) c₃ z last ∧ c₁.scope.depth = e.scope.depth + 1 ∧
      x.code.Encloses (countedLoop y.code threshold counter z.code ++ last.frees) place := by
  obtain ⟨_, _, yields, encloses⟩ := occurs.encloses derivation since
  obtain ⟨_, since'⟩ := occurs.since since
  cases yields with
  | times amount first second inner =>
    have same := ((amount.growth since'.tidy.enter).2 (by simp [Task.Quiet])).scope
    exact ⟨_, _, _, _, _, _, _, _, amount, first, second, inner, congrArg Scope.depth same,
      encloses⟩

/-- What is claimed inside a node is freed where its scope ends. -/
theorem Yields.claim_freed {want : Option Ty} {asked : Compiler}
    (derivation : Yields (.node n want) c x c') (since : Since start c others)
    (quiet : n.introduces = false) (claims : Task.ClaimsAt (.node n want) c place slot asked) :
    Task.FreesAtEnd (.node n want) c x.code place slot asked := by
  obtain ⟨offset, task, d, distance, occurs, claims, rfl⟩ := claims
  obtain ⟨_, since'⟩ := occurs.since since
  cases claims with
  | declared allocated =>
    rcases occurs.quiet_or_inBlock derivation since quiet with impossible | inBlock
    · cases impossible
    · obtain ⟨outer, nodes, e, inner, _, around, remains, rfl, impossible | ⟨n, more, rfl, same⟩⟩ :=
        inBlock
      · cases impossible
      · cases same
        obtain ⟨_, since''⟩ := around.since since
        obtain ⟨_, _, yields, encloses⟩ := around.encloses derivation since
        cases yields with
        | block statements =>
          have at' := ((Occurs.of_part .block).trans remains.occurs).first .firstStatement
          rw [Nat.zero_add] at at'
          exact ⟨outer, inner, _, e, _, _, rfl, around,
            ⟨inner, _, _, 0, at', .declared allocated, rfl⟩, (remains.depth since''.tidy.enter).1,
            .block statements, encloses, remains.freedOnce statements since'' allocated⟩
  | threshold amount first =>
    obtain ⟨_, _, _, _, _, _, _, _, amount', first', second', inner, depth, encloses⟩ :=
      occurs.loop derivation since
    obtain ⟨rfl, rfl⟩ := amount.unique amount'
    rw [first] at first'
    cases first'
    exact ⟨offset, _, _, d, _, _, rfl, occurs,
      ⟨0, _, d, _, .here, .threshold amount first, (Nat.zero_add _).symm⟩, depth,
      .times amount first second' inner, encloses,
      loop_freedOnce since' amount first second' inner List.mem_cons_self⟩
  | counter amount first second =>
    obtain ⟨_, _, _, _, _, _, _, _, amount', first', second', inner, depth, encloses⟩ :=
      occurs.loop derivation since
    obtain ⟨rfl, rfl⟩ := amount.unique amount'
    rw [first] at first'
    cases first'
    rw [second] at second'
    cases second'
    have depth' : asked.scope.depth = d.scope.depth + 1 := by
      obtain ⟨slots, -, rfl⟩ := allocateScratch_ok first
      exact depth
    exact ⟨offset, _, _, d, _, _, rfl, occurs,
      ⟨0, _, d, _, .here, .counter amount first second, (Nat.zero_add _).symm⟩, depth',
      .times amount first second inner, encloses,
      loop_freedOnce since' amount first second inner (List.mem_cons_of_mem _ List.mem_cons_self)⟩

end Primer
