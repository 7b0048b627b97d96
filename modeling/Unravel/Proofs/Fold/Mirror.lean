import Unravel.Proofs.Fold.Step

/-!
Folded instructions mirror the instructions they replace. For every plan of what goes after an
instruction there is one of what goes before it, such that the instruction on the full stack and
the folded instruction on what is kept do the same.
-/
namespace Unravel.Fold
variable {O H X : Type} {interp : Interp O H X} {returns : Bool}
variable {pinned : List Nat} {extra : Bool} {t : Nat} {i : Instr} {s : State}

def Reads : List (Option Known) → List (Value O) → Prop
  | [], _ => True
  | _ :: _, [] => False
  | slot :: stack, v :: values => (∀ k, slot = some k → v = .int k.value) ∧ Reads stack values

structure State.Tracks (s : State) (m : Machine O H) : Prop where
  stack : Reads s.stack m.stack
  locals : ∀ n c, s.locals.lookup n = some c → m.frame.locals n = .int c

/-- An instruction and what became of it, run on a stack and on what is kept of it. -/
inductive Mirrors (interp : Interp O H X) (returns : Bool) (i folded : Instr)
    (before after : List Bool) (tracks : Machine O H → Prop) (m : Machine O H) : Prop where
  | underflow (short : interp.step returns i m = .underflow)
  | goes (next : Machine O H) (ran : interp.step returns i m = .goes next)
      (mirrored : interp.step returns folded { m with stack := keep before m.stack } =
        .goes { next with stack := keep after next.stack })
      (tracked : tracks next)
  | stops (ends : ∀ next, interp.step returns i m ≠ .goes next)
      (same : interp.step returns folded { m with stack := keep before m.stack } =
        interp.step returns i m)

/-- Any plan for the state after an instruction comes from one for the state before it. `final` is
    the state that decides what becomes of the instruction. -/
def Mirrored (interp : Interp O H X) (returns : Bool) (t : Nat) (i : Instr) (s s' : State) :
    Prop :=
  ∀ (final : State) (after : List Bool) (late : List Source), Plan s'.stack after late →
    (t ∈ final.erased ↔ t ∈ dropSources late s'.erased) →
    final.loads.lookup t = s'.loads.lookup t →
    ∃ before early, Plan s.stack before early ∧
      Agree t (dropSources late s'.erased) (dropSources early s.erased) ∧
      ∀ m : Machine O H, s.Tracks m →
        Mirrors interp returns i (foldInstr final t i) before after s'.Tracks m

theorem foldInstr_erased {final : State} (gone : t ∈ final.erased) :
    foldInstr final t i = i.erase := by
  simp [foldInstr, gone]

theorem foldInstr_load {final : State} {c : Constant} (stays : t ∉ final.erased)
    (load : final.loads.lookup t = some c) :
    foldInstr final t i = { i with opcode := c.load.1, operand := c.load.2 } := by
  simp [foldInstr, stays, load]

theorem foldInstr_kept {final : State} (stays : t ∉ final.erased)
    (load : final.loads.lookup t = none) : foldInstr final t i = i := by
  simp [foldInstr, stays, load]

theorem State.Sound.lookup_none (sound : s.Sound pinned t) : s.loads.lookup t = none := by
  rw [List.lookup_eq_none_iff]
  intro l inside
  have before := sound.loads l inside
  exact bne_iff_ne.mpr (by omega)

theorem State.Sound.lookup_appended (sound : s.Sound pinned t) (c : Constant) :
    (s.loads ++ [(t, c)]).lookup t = some c := by
  rw [List.lookup_append, sound.lookup_none]
  simp

theorem mirrored_site {s' : State} {v : Constant} (sound : s.Sound pinned t)
    (stack : s'.stack = some ⟨v, [.site t]⟩ :: s.stack) (erased : s'.erased = s.erased)
    (locals : s'.locals = s.locals)
    (ran : ∀ m : Machine O H, s.Tracks m →
      interp.step returns i m = .goes { m with stack := .int v :: m.stack })
    (kept : ∀ {final : State}, t ∉ final.erased → final.loads.lookup t = s'.loads.lookup t →
      ∀ (m : Machine O H) rest, s.Tracks m →
        interp.step returns (foldInstr final t i) { m with stack := rest } =
          .goes { m with stack := .int v :: rest }) :
    Mirrored interp returns t i s s' := by
  intro final after late plan decided load
  rw [stack] at plan
  rw [erased] at decided ⊢
  obtain ⟨d, rest, base, early, rfl, choice, perm, agree, inside⟩ :=
    plan_site plan sound.sources trivial sound.erased
  rw [inside] at decided
  refine ⟨rest, early, ⟨base, choice, by simpa using perm⟩, agree, ?_⟩
  intro m tracks
  have tracked : s'.Tracks { m with stack := .int v :: m.stack } := by
    refine ⟨?_, by rw [locals]; exact tracks.locals⟩
    rw [stack]
    exact ⟨by rintro k ⟨⟩; rfl, tracks.stack⟩
  refine .goes _ (ran m tracks) ?_ tracked
  cases d with
  | true =>
    rw [foldInstr_erased (decided.mpr rfl), Interp.step_erase]
    rfl
  | false =>
    rw [kept (by simpa using decided) load m _ tracks]
    rfl

theorem mirrored_constant {c : Constant} (sound : s.Sound pinned t)
    (load : i.constant? = some c) :
    Mirrored interp returns t i s (s.push (some ⟨c, [.site t]⟩)) := by
  refine mirrored_site sound rfl rfl rfl (fun m _ => Interp.step_constant load _ _ m) ?_
  intro final stays lookup m rest _
  have none : final.loads.lookup t = none := lookup.trans sound.lookup_none
  rw [foldInstr_kept stays none, Interp.step_constant load]

/-- An instruction that takes `p` values and puts back `q`, whatever lies below them, and writes
    no variable that is not pinned. -/
structure Uniform (interp : Interp O H X) (returns : Bool) (pinned : List Nat) (i : Instr)
    (p q : Nat) : Prop where
  short : ∀ m : Machine O H, m.stack.length < p → interp.step returns i m = .underflow
  even : ∀ (front : List (Value O)) (frame : Frame O H), front.length = p →
    (∃ pushed after, pushed.length = q ∧ (∀ n, n ∉ pinned → after.locals n = frame.locals n) ∧
      ∀ rest, interp.step returns i ⟨front ++ rest, frame⟩ = .goes ⟨pushed ++ rest, after⟩) ∨
    (∃ r, (∀ next, r ≠ .goes next) ∧
      ∀ rest, interp.step returns i ⟨front ++ rest, frame⟩ = r)

theorem reads_drop {stack : List (Option Known)} {front rest : List (Value O)}
    (reads : Reads stack (front ++ rest)) : Reads (stack.drop front.length) rest := by
  induction front generalizing stack with
  | nil => simpa using reads
  | cons v front ih =>
    cases stack with
    | nil => simp [Reads]
    | cons slot stack => exact ih reads.2

theorem reads_replicate {stack : List (Option Known)} {pushed rest : List (Value O)}
    (reads : Reads stack rest) :
    Reads (List.replicate pushed.length none ++ stack) (pushed ++ rest) := by
  induction pushed with
  | nil => simpa using reads
  | cons v pushed ih => exact ⟨by rintro k ⟨⟩, ih⟩

theorem plan_replicate {n : Nat} {stack : List (Option Known)} {gone : List Bool}
    {claims : List Source} (plan : Plan (List.replicate n none ++ stack) gone claims) :
    ∃ rest, Plan stack rest claims ∧ ∀ {α : Type} (front values : List α), front.length = n →
      keep gone (front ++ values) = front ++ keep rest values := by
  induction n generalizing gone with
  | zero =>
    refine ⟨gone, by simpa using plan, ?_⟩
    intro α front values none
    rw [List.length_eq_zero_iff.mp none]
    rfl
  | succ n ih =>
    obtain ⟨base, choice, perm⟩ := plan
    cases choice with
    | @stays _ more _ _ choice =>
      obtain ⟨rest, plan, same⟩ := ih ⟨base, choice, perm⟩
      refine ⟨rest, plan, ?_⟩
      intro α front values count
      cases front with
      | nil => cases count
      | cons v front =>
        rw [List.cons_append, keep_stays, same front values (by simpa using count)]
        rfl

/-- The simulation forgets what a uniform instruction takes and knows nothing of what it puts
    back; nothing on which the instruction works goes. -/
theorem mirrored_uniform {s' : State} {p q : Nat} (sound : s.Sound pinned t)
    (uniform : Uniform interp returns pinned i p q)
    (stack : s'.stack = List.replicate q none ++ s.stack.drop p) (erased : s'.erased = s.erased)
    (loads : s'.loads = s.loads) (locals : s'.locals = s.locals) :
    Mirrored interp returns t i s s' := by
  intro final after late plan decided load
  rw [stack] at plan
  rw [erased] at decided ⊢
  rw [loads] at load
  obtain ⟨rest, restPlan, restKeep⟩ := plan_replicate plan
  obtain ⟨before, planned, split⟩ := plan_undrop p restPlan
  have stays : t ∉ final.erased := by
    rw [decided]
    exact not_mem_dropSources (plan_below planned sound.sources) sound.erased
  refine ⟨before, late, planned, Agree.refl _ _, ?_⟩
  intro m tracks
  rw [foldInstr_kept stays (load.trans sound.lookup_none)]
  by_cases short : m.stack.length < p
  · exact .underflow (uniform.short m short)
  · obtain ⟨values, frame⟩ := m
    obtain ⟨front, below, rfl, count⟩ : ∃ front below, values = front ++ below ∧
        front.length = p :=
      ⟨values.take p, values.drop p, (List.take_append_drop p values).symm,
        by simp only [List.length_take]; dsimp only at short; omega⟩
    have reads := reads_drop tracks.stack
    rw [count] at reads
    rcases uniform.even front frame count with ⟨pushed, next, size, keeps, ran⟩ | ⟨r, ends, ran⟩
    · refine .goes _ (ran below) ?_ ?_
      · dsimp only
        rw [split front below count, ran, restKeep pushed below size]
      · refine ⟨?_, ?_⟩
        · rw [stack, ← size]
          exact reads_replicate reads
        · intro n c found
          rw [locals] at found
          exact (keeps n (sound.free n c found)).trans (tracks.locals n c found)
    · refine .stops ?_ ?_
      · rw [ran]
        exact ends
      · dsimp only
        rw [split front below count, ran, ran]

theorem mirrored_loaded {n : Nat} (sound : s.Sound pinned t) (value : i.constant? = none)
    (access : i.loadedLocal? = some n) :
    Mirrored interp returns t i s (s.loadLocal extra t n) := by
  rcases loadLocal_cases extra t s n with ⟨c, known, same⟩ | ⟨-, same⟩
  · have ran : ∀ (m : Machine O H) rest, s.Tracks m →
        interp.step returns i { m with stack := rest } =
          .goes { m with stack := .int c :: rest } := by
      intro m rest tracks
      rw [Interp.step_loaded value access, tracks.locals n c known]
    rw [same]
    cases extra with
    | false =>
      refine mirrored_site sound rfl rfl rfl (fun m tracks => ran m m.stack tracks) ?_
      intro final stays lookup m rest tracks
      rw [foldInstr_kept stays (lookup.trans sound.lookup_none), ran m rest tracks]
    | true =>
      refine mirrored_site sound rfl rfl rfl (fun m tracks => ran m m.stack tracks) ?_
      intro final stays lookup m rest tracks
      have load : final.loads.lookup t = some c := lookup.trans (sound.lookup_appended c)
      rw [foldInstr_load stays load, Interp.step_constant (i.constant?_load c)]
  · have uniform : Uniform interp returns pinned i 0 1 := by
      refine ⟨fun m short => absurd short (Nat.not_lt_zero _), ?_⟩
      intro front frame none
      refine .inl ⟨[frame.locals n], frame, rfl, fun _ _ => rfl, ?_⟩
      intro rest
      rw [List.length_eq_zero_iff.mp none, Interp.step_loaded value access]
      rfl
    rw [same]
    exact mirrored_uniform sound uniform rfl rfl rfl rfl

theorem reads_top {stack : List (Option Known)} {v : Value O} {rest : List (Value O)} {k : Known}
    (reads : Reads stack (v :: rest)) (top : stack.headD none = some k) : v = .int k.value := by
  cases stack with
  | nil => cases top
  | cons slot stack => exact reads.1 k top

theorem reads_tail {stack : List (Option Known)} {v : Value O} {rest : List (Value O)}
    (reads : Reads stack (v :: rest)) : Reads stack.tail rest := by
  cases stack with
  | nil => trivial
  | cons slot stack => exact reads.2

theorem storeLocal_locals {n k : Nat} {c : Constant}
    (found : (s.storeLocal pinned n).locals.lookup k = some c) :
    if k = n then ∃ known, s.stack.headD none = some known ∧ known.value = c
    else s.locals.lookup k = some c := by
  unfold State.storeLocal State.pop at found
  split at found
  · rename_i known rest popped
    obtain ⟨top, rfl⟩ := Prod.mk.inj popped
    split at found
    · rw [State.forgetLocal, lookup_filter_ne] at found
      split at found
      · cases found
      · rename_i away
        rwa [if_neg away]
    · rw [State.setLocal, List.lookup_cons, lookup_filter_ne] at found
      split
      · rename_i hit
        have same : (k == n) = true := by simpa using hit
        rw [same] at found
        exact ⟨known, top, Option.some.inj found⟩
      · rename_i away
        have miss : (k == n) = false := by simpa using away
        rw [miss, if_neg away] at found
        exact found
  · rename_i rest popped
    obtain ⟨_, rfl⟩ := Prod.mk.inj popped
    rw [State.forgetLocal, lookup_filter_ne] at found
    split at found
    · cases found
    · rename_i away
      rwa [if_neg away]

theorem mirrored_stored {n : Nat} (sound : s.Sound pinned t) (value : i.constant? = none)
    (load : i.loadedLocal? = none) (access : i.storedLocal? = some n) :
    Mirrored interp returns t i s (s.storeLocal pinned n) := by
  obtain ⟨stack, erased, loads⟩ := storeLocal_fields pinned s n
  intro final after late plan decided lookup
  rw [stack] at plan
  rw [erased] at decided ⊢
  rw [loads] at lookup
  obtain ⟨before, planned, split⟩ := plan_untail plan
  have stays : t ∉ final.erased := by
    rw [decided]
    exact not_mem_dropSources (plan_below planned sound.sources) sound.erased
  refine ⟨before, late, planned, Agree.refl _ _, ?_⟩
  intro m tracks
  rw [foldInstr_kept stays (lookup.trans sound.lookup_none)]
  obtain ⟨values, frame⟩ := m
  cases values with
  | nil => exact .underflow (by simp only [Interp.step, value, load, access])
  | cons v rest =>
    refine .goes ⟨rest, frame.setLocal n v⟩ (by simp only [Interp.step, value, load, access]) ?_ ?_
    · dsimp only
      rw [split v rest]
      simp only [Interp.step, value, load, access]
    · refine ⟨by rw [stack]; exact reads_tail tracks.stack, ?_⟩
      intro k c found
      have kept := storeLocal_locals found
      dsimp only [Frame.setLocal]
      split at kept
      · rename_i hit
        obtain ⟨known, top, rfl⟩ := kept
        rw [if_pos hit]
        exact reads_top tracks.stack top
      · rename_i away
        rw [if_neg away]
        exact tracks.locals k c kept

theorem call_short {e : StackEffect} (effect : i.stackEffect? returns = some e)
    (m : Machine O H) (short : m.stack.length < e.pops) :
    interp.call returns i m = .underflow := by
  simp [Interp.call, effect, short]

theorem call_even {e : StackEffect} (lawful : interp.Lawful returns (· ∈ pinned))
    (effect : i.stackEffect? returns = some e) (front : List (Value O)) (frame : Frame O H)
    (count : front.length = e.pops) :
    (∃ pushed after, pushed.length = e.pushes ∧
      (∀ n, n ∉ pinned → after.locals n = frame.locals n) ∧
      ∀ rest, interp.call returns i ⟨front ++ rest, frame⟩ = .goes ⟨pushed ++ rest, after⟩) ∨
    (∃ r, (∀ next, r ≠ .goes next) ∧
      ∀ rest, interp.call returns i ⟨front ++ rest, frame⟩ = r) := by
  cases outcome : interp.effect i front frame with
  | none =>
    refine .inr ⟨.undefined, by rintro next ⟨⟩, ?_⟩
    intro rest
    simp [Interp.call, effect, ← count, outcome]
  | some result =>
    cases result with
    | yields pushed after =>
      refine .inl ⟨pushed, after, lawful.arity outcome effect,
        fun n free => lawful.keeps outcome free, ?_⟩
      intro rest
      simp [Interp.call, effect, ← count, outcome]
    | raises x after =>
      refine .inr ⟨.raised x after, by rintro next ⟨⟩, ?_⟩
      intro rest
      simp [Interp.call, effect, ← count, outcome]

theorem uniform_call {e : StackEffect} (lawful : interp.Lawful returns (· ∈ pinned))
    (called : ∀ m, interp.step returns i m = interp.call returns i m)
    (effect : i.stackEffect? returns = some e) :
    Uniform interp returns pinned i e.pops e.pushes := by
  refine ⟨?_, ?_⟩
  · intro m short
    rw [called, call_short effect m short]
  · intro front frame count
    simp only [called]
    exact call_even lawful effect front frame count

theorem step_eq_compute (moves : match i.opcode with
      | .nop | .pop | .dup | .unary _ | .binary _ => True
      | _ => False) (m : Machine O H) :
    interp.step returns i m = interp.compute returns i m := by
  apply Interp.step_computed
  · unfold Instr.constant?
    split <;> simp_all
  · unfold Instr.loadedLocal?
    split <;> simp_all
  · unfold Instr.storedLocal?
    split <;> simp_all

theorem step_short {e : StackEffect} (moves : match i.opcode with
      | .nop | .pop | .dup | .unary _ | .binary _ => True
      | _ => False) (effect : i.stackEffect? returns = some e) (m : Machine O H)
    (short : m.stack.length < e.pops) : interp.step returns i m = .underflow := by
  have called : interp.compute returns i m = interp.call returns i m := by
    unfold Interp.compute
    split
    case h_6 => rfl
    all_goals
      -- Here the stack holds what the instruction takes.
      simp_all only [Instr.stackEffect?, Opcode.fixedStack, Option.some.injEq, List.length_cons]
      subst effect
      dsimp only at short
      omega
  rw [step_eq_compute moves, called, call_short effect m short]

theorem uniform_unary {f : UnaryOp} (lawful : interp.Lawful returns (· ∈ pinned))
    (op : i.opcode = .unary f) : Uniform interp returns pinned i 1 1 := by
  have effect : i.stackEffect? returns = some ⟨1, 1⟩ := by
    simp [Instr.stackEffect?, op, Opcode.fixedStack]
  have moved : ∀ m, interp.step returns i m = interp.compute returns i m :=
    step_eq_compute (by simp [op])
  refine ⟨step_short (by simp [op]) effect, ?_⟩
  intro front frame count
  obtain ⟨v, rfl⟩ := List.length_eq_one_iff.mp count
  simp only [moved]
  cases v with
  | int c =>
    refine .inl ⟨[.int (Integer.unary f c)], frame, rfl, fun _ _ => rfl, ?_⟩
    intro rest
    simp [Interp.compute, op]
  | other o =>
    have called : ∀ rest, interp.compute returns i ⟨[.other o] ++ rest, frame⟩ =
        interp.call returns i ⟨[.other o] ++ rest, frame⟩ := by
      intro rest
      simp [Interp.compute, op]
    simp only [called]
    exact call_even lawful effect _ frame rfl

theorem uniform_binary {f : BinaryOp} (lawful : interp.Lawful returns (· ∈ pinned))
    (op : i.opcode = .binary f) : Uniform interp returns pinned i 2 1 := by
  have effect : i.stackEffect? returns = some ⟨2, 1⟩ := by
    simp [Instr.stackEffect?, op, Opcode.fixedStack]
  have moved : ∀ m, interp.step returns i m = interp.compute returns i m :=
    step_eq_compute (by simp [op])
  refine ⟨step_short (by simp [op]) effect, ?_⟩
  intro front frame count
  obtain ⟨y, x, rfl⟩ := List.length_eq_two.mp count
  simp only [moved]
  by_cases folds : ∃ a b c, y = .int b ∧ x = .int a ∧ Integer.binary? f a b = some c
  · obtain ⟨a, b, c, rfl, rfl, value⟩ := folds
    refine .inl ⟨[.int c], frame, rfl, fun _ _ => rfl, ?_⟩
    intro rest
    simp [Interp.compute, op, value]
  · have called : ∀ rest, interp.compute returns i ⟨[y, x] ++ rest, frame⟩ =
        interp.call returns i ⟨[y, x] ++ rest, frame⟩ := by
      intro rest
      simp only [Interp.compute, op, List.cons_append, List.nil_append]
      split <;> simp_all
      split <;> simp_all
    simp only [called]
    exact call_even lawful effect _ frame rfl

theorem choice_all {stack : List (Option Known)} {rest : List Bool} {base : List Source} (d : Bool)
    (choice : Choice stack rest base) (ks : List Known) :
    Choice (ks.map some ++ stack) (List.replicate ks.length d ++ rest)
      ((if d then ks.flatMap Known.sources else []) ++ base) := by
  induction ks with
  | nil => cases d <;> exact choice
  | cons k ks ih =>
    cases d with
    | false => exact .stays (some k) ih
    | true =>
      rw [if_pos rfl] at ih ⊢
      rw [List.flatMap_cons, List.append_assoc]
      exact .goes k ih

theorem keep_all {α : Type} (d : Bool) (rest : List Bool) (front values : List α) :
    keep (List.replicate front.length d ++ rest) (front ++ values) =
      if d then keep rest values else front ++ keep rest values := by
  induction front with
  | nil => cases d <;> rfl
  | cons v front ih =>
    cases d with
    | false =>
      rw [if_neg Bool.false_ne_true] at ih ⊢
      simp only [List.length_cons, List.replicate_succ, List.cons_append, keep_stays, ih]
    | true =>
      rw [if_pos rfl] at ih ⊢
      simp only [List.length_cons, List.replicate_succ, List.cons_append, keep_goes, ih]

theorem reads_known {stack : List (Option Known)} {values : List (Value O)} {ks : List Known}
    (reads : Reads (ks.map some ++ stack) values) :
    ∃ below, values = ks.map (fun k => .int k.value) ++ below ∧ Reads stack below := by
  induction ks generalizing values with
  | nil => exact ⟨values, rfl, reads⟩
  | cons k ks ih =>
    cases values with
    | nil => cases reads
    | cons v values =>
      obtain ⟨below, rfl, rest⟩ := ih reads.2
      rw [reads.1 k rfl]
      exact ⟨below, rfl, rest⟩

theorem mirrors_fold {ks : List Known} {rest : List (Option Known)} {sources : List Source}
    {v : Constant} {s' final : State} {d : Bool} {tail : List Bool}
    (stack : s.stack = ks.map some ++ rest) (stack' : s'.stack = some ⟨v, sources⟩ :: rest)
    (locals : s'.locals = s.locals)
    (ran : ∀ below (frame : Frame O H),
      interp.step returns i ⟨ks.map (fun k => .int k.value) ++ below, frame⟩ =
        .goes ⟨.int v :: below, frame⟩)
    (decided : t ∈ final.erased ↔ d = true)
    (load : final.loads.lookup t = if extra then some v else none)
    (m : Machine O H) (tracks : s.Tracks m) :
    Mirrors interp returns i (foldInstr final t i)
      (List.replicate ks.length (extra || d) ++ tail) (d :: tail) s'.Tracks m := by
  obtain ⟨values, frame⟩ := m
  obtain ⟨below, rfl, reads⟩ := reads_known (by simpa only [stack] using tracks.stack)
  have kept := keep_all (extra || d) tail (ks.map fun k => (.int k.value : Value O)) below
  rw [List.length_map] at kept
  refine .goes _ (ran below frame) ?_ ?_
  · dsimp only
    rw [kept]
    cases d with
    | true =>
      rw [Bool.or_true, if_pos rfl, foldInstr_erased (decided.mpr rfl), Interp.step_erase]
      rfl
    | false =>
      have stays : t ∉ final.erased := by simpa using decided
      cases extra with
      | true =>
        rw [Bool.or_false, if_pos rfl, foldInstr_load stays (by simpa using load),
          Interp.step_constant (i.constant?_load v)]
        rfl
      | false =>
        rw [Bool.or_false, if_neg Bool.false_ne_true, foldInstr_kept stays (by simpa using load),
          ran]
        rfl
  · refine ⟨?_, by rw [locals]; exact tracks.locals⟩
    rw [stack']
    exact ⟨by rintro k ⟨⟩; rfl, reads⟩

theorem mirrored_fold (ks : List Known) {rest : List (Option Known)} {sources : List Source}
    {v : Constant} (sound : s.Sound pinned t) (stack : s.stack = ks.map some ++ rest)
    (perm : sources.Perm (ks.flatMap Known.sources))
    (ran : ∀ below (frame : Frame O H),
      interp.step returns i ⟨ks.map (fun k => .int k.value) ++ below, frame⟩ =
        .goes ⟨.int v :: below, frame⟩) :
    Mirrored interp returns t i s (State.fold extra t { s with stack := rest } v sources) := by
  have below : ∀ k, some k ∈ rest → SourcesBelow t k.sources := by
    intro k inside
    exact sound.sources k (by rw [stack]; exact List.mem_append_right _ inside)
  have belowS : SourcesBelow t sources := by
    rw [sourcesBelow_iff]
    intro x inside
    obtain ⟨k, member, source⟩ := List.mem_flatMap.mp (perm.mem_iff.mp inside)
    have known : some k ∈ s.stack := by
      rw [stack]
      exact List.mem_append_left _ (List.mem_map_of_mem member)
    exact (sourcesBelow_iff _).mp (sound.sources k known) x source
  intro final after late plan decided load
  -- Where computations are replaced, the sources are claimed here; else only if the result goes.
  cases extra with
  | true =>
    have claimed : ∀ j ∈ dropSources sources s.erased, j < t := by
      intro j inside
      rcases mem_dropSources_below sources belowS inside with early | early
      · exact sound.erased j early
      · exact early
    obtain ⟨d, tail, base, early, rfl, choice, order, agree, inside⟩ :=
      plan_site plan below trivial claimed
    refine ⟨List.replicate ks.length (true || d) ++ tail, sources ++ early,
      ⟨_, stack ▸ choice_all true choice ks, ?_⟩, ?_, ?_⟩
    · exact perm.append (by simpa using order)
    · rw [dropSources_append]
      exact agree
    · exact mirrors_fold stack rfl rfl ran (decided.trans inside)
        (load.trans (sound.lookup_appended v))
  | false =>
    obtain ⟨d, tail, base, early, rfl, choice, order, agree, inside⟩ :=
      plan_site plan below belowS sound.erased
    refine ⟨List.replicate ks.length (false || d) ++ tail, early,
      ⟨_, stack ▸ choice_all d choice ks, order.trans ?_⟩, agree, ?_⟩
    · cases d with
      | true => exact perm.append_right base
      | false => exact .refl _
    · exact mirrors_fold stack rfl rfl ran (decided.trans inside)
        (load.trans sound.lookup_none)

theorem mirrored_unary {f : UnaryOp} (lawful : interp.Lawful returns (· ∈ pinned))
    (sound : s.Sound pinned t) (op : i.opcode = .unary f) :
    Mirrored interp returns t i s (s.foldUnary extra t f) := by
  rcases foldUnary_cases extra t f s with ⟨a, rest, stack, same⟩ | ⟨-, same⟩
  · rw [same]
    refine mirrored_fold [a] sound stack (by simp) ?_
    intro below frame
    rw [step_eq_compute (by simp [op]), Integer.constant_unary_eq]
    simp [Interp.compute, op]
  · rw [same]
    exact mirrored_uniform sound (uniform_unary lawful op) rfl rfl rfl rfl

theorem mirrored_binary {f : BinaryOp} (lawful : interp.Lawful returns (· ∈ pinned))
    (sound : s.Sound pinned t) (op : i.opcode = .binary f) :
    Mirrored interp returns t i s (s.foldBinary extra t f) := by
  rcases foldBinary_cases extra t f s with ⟨a, c, v, rest, stack, value, same⟩ | ⟨-, same⟩
  · rw [same]
    refine mirrored_fold [c, a] sound stack ?_ ?_
    · simpa using List.perm_append_comm
    · intro below frame
      rw [step_eq_compute (by simp [op])]
      rw [Integer.constant_binary?_eq] at value
      simp [Interp.compute, op, value]
  · rw [same]
    exact mirrored_uniform sound (uniform_binary lawful op) rfl rfl rfl rfl

theorem step_dup (op : i.opcode = .dup) (v : Value O) (rest : List (Value O)) (frame : Frame O H) :
    interp.step returns i ⟨v :: rest, frame⟩ = .goes ⟨v :: v :: rest, frame⟩ := by
  rw [step_eq_compute (by simp [op])]
  simp [Interp.compute, op]

theorem uniform_dup (op : i.opcode = .dup) : Uniform interp returns pinned i 1 2 := by
  have effect : i.stackEffect? returns = some ⟨1, 2⟩ := by
    simp [Instr.stackEffect?, op, Opcode.fixedStack]
  refine ⟨step_short (by simp [op]) effect, ?_⟩
  intro front frame count
  obtain ⟨v, rfl⟩ := List.length_eq_one_iff.mp count
  exact .inl ⟨[v, v], frame, rfl, fun _ _ => rfl, fun rest => step_dup op v rest frame⟩

theorem mirrors_dup {a : Known} {below : List (Option Known)} {s' final : State} {c d : Bool}
    {tail : List Bool} (op : i.opcode = .dup) (stack : s.stack = some a :: below)
    (stack' : s'.stack = some ⟨a.value, [.copy t a.sources]⟩ ::
      some ⟨a.value, [.copy t a.sources]⟩ :: below)
    (locals : s'.locals = s.locals) (decided : t ∈ final.erased ↔ (c || d) = true)
    (load : final.loads.lookup t = none) (m : Machine O H) (tracks : s.Tracks m) :
    Mirrors interp returns i (foldInstr final t i) ((c && d) :: tail) (c :: d :: tail) s'.Tracks
      m := by
  obtain ⟨values, frame⟩ := m
  have reads := tracks.stack
  rw [stack] at reads
  cases values with
  | nil => cases reads
  | cons v rest =>
    have value := reads.1 a rfl
    refine .goes _ (step_dup op v rest frame) ?_ ?_
    · cases gone : c || d with
      | true =>
        rw [foldInstr_erased (decided.mpr gone), Interp.step_erase]
        rcases c with _ | _
        · rcases d with _ | _
          · cases gone
          · rfl
        · rcases d with _ | _ <;> rfl
      | false =>
        have stays : t ∉ final.erased := by
          rw [decided, gone]
          exact Bool.false_ne_true
        rw [foldInstr_kept stays load]
        obtain ⟨rfl, rfl⟩ := Bool.or_eq_false_iff.mp gone
        exact step_dup op v (keep tail rest) frame
    · refine ⟨?_, by rw [locals]; exact tracks.locals⟩
      rw [stack']
      refine ⟨?_, ?_, reads.2⟩ <;>
      · rintro k ⟨⟩
        exact value

theorem mirrored_dup (sound : s.Sound pinned t) (op : i.opcode = .dup) :
    Mirrored interp returns t i s (s.duplicate t) := by
  rcases duplicate_cases t s with ⟨a, rest, stack, same⟩ | ⟨-, same⟩
  · have below : ∀ k, some k ∈ rest → SourcesBelow t k.sources :=
      fun k inside => sound.sources k (by simp [stack, inside])
    have belowS : SourcesBelow t a.sources := sound.sources a (by simp [stack])
    rw [same]
    intro final after late plan decided load
    obtain ⟨c, d, tail, base, early, rfl, choice, order, agree, inside⟩ :=
      plan_copies plan below belowS sound.erased
    refine ⟨(c && d) :: tail, early, ?_, agree, ?_⟩
    · rw [stack]
      cases both : c && d with
      | true => exact ⟨_, .goes a choice, by simpa [both] using order⟩
      | false => exact ⟨_, .stays (some a) choice, by simpa [both] using order⟩
    · exact mirrors_dup op stack rfl rfl (decided.trans inside) (load.trans sound.lookup_none)
  · rw [same]
    exact mirrored_uniform sound (uniform_dup op) rfl rfl rfl rfl

theorem uniform_nop (op : i.opcode = .nop) : Uniform interp returns pinned i 0 0 := by
  refine ⟨fun m short => absurd short (Nat.not_lt_zero _), ?_⟩
  intro front frame none
  refine .inl ⟨[], frame, rfl, fun _ _ => rfl, ?_⟩
  intro rest
  rw [List.length_eq_zero_iff.mp none, step_eq_compute (by simp [op])]
  simp [Interp.compute, op]

theorem uniform_pop (op : i.opcode = .pop) : Uniform interp returns pinned i 1 0 := by
  have effect : i.stackEffect? returns = some ⟨1, 0⟩ := by
    simp [Instr.stackEffect?, op, Opcode.fixedStack]
  refine ⟨step_short (by simp [op]) effect, ?_⟩
  intro front frame count
  obtain ⟨v, rfl⟩ := List.length_eq_one_iff.mp count
  refine .inl ⟨[], frame, rfl, fun _ _ => rfl, ?_⟩
  intro rest
  rw [step_eq_compute (by simp [op])]
  simp [Interp.compute, op]

theorem stackEffect?_eq (plain : i.isTerminal = false) (a b : Bool) :
    i.stackEffect? a = i.stackEffect? b := by
  have open_ : i.opcode ≠ .ret := by
    intro op
    simp [Instr.isTerminal, Instr.flow, op, Opcode.flow, Flow.endsBlock] at plain
  unfold Instr.stackEffect?
  split <;> simp_all

theorem stepped_mirrored {s' : State} (lawful : interp.Lawful returns (· ∈ pinned))
    (effects : i.stackEffect? true = i.stackEffect? returns) (sound : s.Sound pinned t)
    (stepped : Stepped pinned extra t i s s') : Mirrored interp returns t i s s' := by
  cases stepped with
  | constant c load => exact mirrored_constant sound load
  | loaded n value access => exact mirrored_loaded sound value access
  | stored n value load access => exact mirrored_stored sound value load access
  | nop op => exact mirrored_uniform sound (uniform_nop op) rfl rfl rfl rfl
  | pop op => exact mirrored_uniform sound (uniform_pop op) (by simp [State.pop]) rfl rfl rfl
  | dup op => exact mirrored_dup sound op
  | unary f op => exact mirrored_unary lawful sound op
  | binary f op => exact mirrored_binary lawful sound op
  | skipped effect known called =>
    rw [effects] at known
    exact mirrored_uniform sound (uniform_call lawful (called interp returns) known) rfl rfl rfl rfl

end Unravel.Fold
