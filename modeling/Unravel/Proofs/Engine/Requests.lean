import Unravel.Proofs.Engine.Completion

/-!
What an engine does to one method. The registry lets a token run once, and knows exactly the tokens
that have run. A run gets to its end and hands over a new body, or gives up and leaves a warning;
all that it records belongs to its method.
-/
namespace Unravel

namespace Registry
variable {r r' r'' : Registry} {tokens more : List Token}

theorem lookup_markIn (token other : Token) (bits : UInt32) (marks : List (Token × UInt32)) :
    (markIn token bits marks).lookup other =
      if other = token then some ((marks.lookup token).getD 0 ||| bits)
      else marks.lookup other := by
  induction marks with
  | nil =>
    by_cases same : other = token
    · simp [markIn, same]
    · simp [markIn, same, List.lookup_cons, beq_false_of_ne same]
  | cons entry rest ih =>
    obtain ⟨key, old⟩ := entry
    rw [markIn]
    split
    · rename_i here
      subst here
      by_cases same : other = key
      · simp [same]
      · simp [same, List.lookup_cons, beq_false_of_ne same]
    · rename_i away
      simp only [List.lookup_cons, ih]
      by_cases there : other = key
      · simp [there, away]
      · have apart : (token == key) = false := by
          simpa using fun same : token = key => away same.symm
        by_cases same : other = token
        · simp [same, apart]
        · simp [same]

theorem flags_mark (r : Registry) (token other : Token) (bits : UInt32) :
    (r.mark token bits).flags other =
      if other = token then r.flags other ||| bits else r.flags other := by
  rw [flags, mark, lookup_markIn]
  split
  · rename_i same
    rw [same, Option.getD_some]
    rfl
  · rfl

theorem check_mark (r : Registry) (token other : Token) (bits : UInt32) :
    (r.mark token bits).check other bits = true ↔ r.check other bits = true ∨ other = token := by
  have all : ∀ x : UInt32, (x ||| bits) &&& bits = bits := by
    intro x
    apply UInt32.eq_of_toBitVec_eq
    ext i
    simp
    tauto
  rw [check, flags_mark]
  split
  · simp [*]
  · simp [*, check]

/-- Between two states of the registry some tokens were taken up, each of them once and for the
    first time. -/
structure Took (r : Registry) (tokens : List Token) (r' : Registry) : Prop where
  once : tokens.Nodup
  first : ∀ token ∈ tokens, r.check token Engine.taken = false
  all : ∀ token, r'.check token Engine.taken = true ↔
    r.check token Engine.taken = true ∨ token ∈ tokens

namespace Took

theorem none (r : Registry) : Took r [] r := ⟨List.nodup_nil, by simp, by simp⟩

theorem one {token : Token} (free : r.check token Engine.taken = false) :
    Took r [token] (r.mark token Engine.taken) where
  once := List.nodup_singleton token
  first := by simpa using free
  all other := by rw [check_mark, List.mem_singleton]

theorem perm (took : Took r tokens r') (same : tokens.Perm more) : Took r more r' where
  once := same.nodup_iff.mp took.once
  first token inside := took.first token (same.mem_iff.mpr inside)
  all token := by rw [took.all, same.mem_iff]

theorem trans (before : Took r tokens r') (after : Took r' more r'') :
    Took r (tokens ++ more) r'' where
  once := by
    refine List.nodup_append'.mpr ⟨before.once, after.once, ?_⟩
    intro token early late
    have taken := (before.all token).mpr (.inr early)
    rw [after.first token late] at taken
    cases taken
  first token inside := by
    rcases List.mem_append.mp inside with early | late
    · exact before.first token early
    · by_contra taken
      have still := (before.all token).mpr (.inl (by simpa using taken))
      rw [after.first token late] at still
      cases still
  all token := by rw [after.all, before.all, List.mem_append, or_assoc]

theorem add {token : Token} (took : Took r tokens r')
    (free : r'.check token Engine.taken = false) :
    Took r (token :: tokens) (r'.mark token Engine.taken) :=
  (took.trans (.one free)).perm (List.perm_append_singleton token tokens)

end Took
end Registry

namespace Predicate

theorem scan_events (methods : Resolver) (method : Token) (index : Nat)
    (previous : Instr) (rest : List Instr) :
    ∀ e ∈ (scan methods method index previous rest).2.1,
      e.method = some method ∧ e.kind = .equationSimplified := by
  fun_induction scan methods method index previous rest with
  | case1 index previous test next rest form fate v site settled code events count scanned ih =>
    rw [scanned] at ih
    exact List.forall_mem_cons.mpr ⟨⟨rfl, rfl⟩, ih⟩
  | case2 index previous test next rest site code events count scanned ih =>
    rw [scanned] at ih
    exact ih
  | case3 index previous rest short => exact List.forall_mem_nil _

theorem simplify_events (methods : Resolver) (method : Token) (b : Body) :
    ∀ e ∈ (simplify methods method b).2, e.method = some method ∧ e.kind = .equationSimplified := by
  change ∀ e ∈ (settle methods method b).2.1, _
  unfold settle
  split
  · exact nofun
  · exact scan_events methods method 1 _ _

end Predicate

namespace Engine
variable {c : Config} {e e' : Engine} {methods : Resolver} {m m' : Method}
variable {body written : Body} {events : Journal} {outcome : Outcome}

theorem simplified_events (c : Config) (methods : Resolver) (m : Method) (body : Body) :
    ∀ e ∈ (simplified c methods m body).2,
      e.method = some m.token ∧ e.kind = .equationSimplified := by
  unfold simplified
  split
  · exact Predicate.simplify_events methods m.token body
  · exact nofun

theorem transform_inside (done : transform c methods m body = .ok (written, events)) :
    events.Inside m.token := by
  obtain ⟨cut, live, n, -, -, -, -, rfl⟩ := transform_ok done
  refine .append ?_ (Schedule.run_inside c ⟨m, methods, c⟩ cut)
  intro e inside
  obtain ⟨own, kind⟩ := simplified_events c methods m body e inside
  exact ⟨own, by rw [kind]; rfl, by rw [kind]; nofun⟩

/-- A method without code is passed over, and so is one that has run. -/
def Idle (r : Registry) (m : Method) : Prop :=
  m.body = none ∨ (∃ b, m.body = some b ∧ b.instrs = []) ∨ r.check m.token taken = true

theorem gate?_none (idle : e.gate? m = none) : Idle e.registry m := by
  cases has : m.code? with
  | none => exact (code?_none has).imp_right .inl
  | some body =>
    refine .inr (.inr ?_)
    by_contra free
    rw [Bool.not_eq_true] at free
    simp [gate?, has, Registry.take, free] at idle

theorem broken_of_cleaned {cause : Error} (failed : e.cleaned methods m = .error cause) :
    m.broken = true := by
  by_contra readable
  unfold cleaned at failed
  rw [if_neg readable] at failed
  split at failed <;> cases failed

/-- What a turn of a method comes to: the outcome, what has become of the method, and what is
    recorded. -/
inductive Turn (c : Config) (r : Registry) (m : Method) : Outcome → Method → Journal → Prop where
  | skipped (idle : Idle r m) : Turn c r m .skipped m []
  | transformed {seen : Resolver} {body written : Body} {events : Journal}
      (stored : m.body = some body) (ran : transform c seen m body = .ok (written, events))
      (own : events.Inside m.token) :
      Turn c r m .transformed { m with body := some written }
        (events ++ [{ kind := .codeRegenerated, method := some m.token }])
  | aborted {seen : Resolver} {body : Body} {cause : Error} {warning : Event}
      (stored : m.body = some body) (failed : transform c seen m body = .error cause)
      (warns : warning.kind = .warning) (own : warning.method = some m.token) :
      Turn c r m .aborted m [warning]

theorem Turn.of_settle (stored : m.body = some body) {seen : Resolver} (r : Registry)
    (settled : settle m (transform c seen m body) = (outcome, m', events)) :
    Turn c r m outcome m' events ∧ outcome ≠ .skipped := by
  cases ran : transform c seen m body with
  | ok result =>
    rw [ran] at settled
    cases settled
    exact ⟨.transformed stored ran (transform_inside ran), nofun⟩
  | error cause =>
    rw [ran] at settled
    cases settled
    exact ⟨.aborted stored ran rfl rfl, nofun⟩

theorem cleaned_skipped (done : e.cleaned methods m = .ok (.skipped, e', m')) :
    e' = e ∧ m' = m := by
  unfold cleaned at done
  split at done
  · cases done
  · split at done
    · cases done
      exact ⟨rfl, rfl⟩
    · rename_i body marked passes
      have stored := (code?_some (gate?_some passes).1).1
      generalize settled : settle m _ = came at done
      obtain ⟨outcome, last, events⟩ := came
      obtain ⟨-, ran⟩ := Turn.of_settle stored e.registry settled
      cases done
      exact absurd rfl ran

theorem Turn.own {r : Registry} (turn : Turn c r m outcome m' events) :
    ∀ event ∈ events, event.method = some m.token := by
  cases turn with
  | skipped => exact nofun
  | transformed _ _ own =>
    refine List.forall_mem_append.mpr ⟨fun event inside => (own event inside).own, ?_⟩
    exact List.forall_mem_singleton.mpr rfl
  | aborted _ _ _ own => exact List.forall_mem_singleton.mpr own

theorem Turn.silent {r : Registry} (turn : Turn c r m .skipped m' events) : events = [] := by
  cases turn with
  | skipped => rfl

theorem Turn.broken {r : Registry} (turn : Turn c r m outcome m' events) :
    m'.broken = m.broken := by
  cases turn <;> rfl

theorem Turn.mono {r r' : Registry} (turn : Turn c r m outcome m' events)
    (grows : ∀ token, r.check token taken = true → r'.check token taken = true) :
    Turn c r' m outcome m' events := by
  cases turn with
  | skipped idle => exact .skipped (idle.imp_right (Or.imp_right (grows m.token)))
  | transformed stored ran own => exact .transformed stored ran own
  | aborted stored failed warns own => exact .aborted stored failed warns own

theorem pruned_ok (done : e.pruned m = .ok (e', m')) :
    m.broken = false ∧
      (m.code? = none ∧ e' = e ∧ m' = m ∨
        ∃ body g n live again written, m.code? = some body ∧ body.toGraph = .ok g ∧
          g.removeDead = .ok (n, live) ∧ live.repartition = .ok again ∧
          finish m again = .ok written ∧
          e' = e.record
            (List.replicate n { kind := .blockRemoved, method := some m.token }) ∧
          m' = { m with body := some written }) := by
  unfold pruned at done
  split at done
  · cases done
  · rename_i readable
    refine ⟨Bool.not_eq_true _ ▸ readable, ?_⟩
    split at done
    · rename_i empty
      cases done
      exact .inl ⟨empty, rfl, rfl⟩
    · rename_i body has
      obtain ⟨g, cut, done⟩ := bind_ok_iff.mp done
      obtain ⟨⟨n, live⟩, removed, done⟩ := bind_ok_iff.mp done
      obtain ⟨again, anew, done⟩ := bind_ok_iff.mp done
      obtain ⟨written, wrote, done⟩ := bind_ok_iff.mp done
      cases done
      exact .inr ⟨body, g, n, live, again, written, has, cut, removed, anew, wrote, rfl, rfl⟩

theorem count_outcomes (outcomes : List Outcome) :
    outcomes.count .transformed + outcomes.count .skipped + outcomes.count .aborted =
      outcomes.length := by
  induction outcomes with
  | nil => rfl
  | cons outcome rest ih =>
    cases outcome <;> simp <;> omega

end Engine
end Unravel
