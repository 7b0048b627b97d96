import Unravel.Proofs.Pass.Scheduling

namespace Unravel

structure Event.Inside (token : Token) (e : Event) : Prop where
  own : e.method = some token
  changes : e.kind.isChange = true
  open_ : e.kind ≠ .codeRegenerated

def Journal.Inside (token : Token) (events : Journal) : Prop := ∀ e ∈ events, e.Inside token

namespace Journal.Inside
variable {token : Token} {first second : Journal}

theorem nil (token : Token) : Journal.Inside token [] :=
  fun _ inside => absurd inside List.not_mem_nil

theorem append (one : first.Inside token) (other : second.Inside token) :
    Journal.Inside token (first ++ second) :=
  List.forall_mem_append.mpr ⟨one, other⟩

theorem replicate {e : Event} (inside : e.Inside token) (n : Nat) :
    Journal.Inside token (List.replicate n e) := by
  intro e' among
  rw [List.eq_of_mem_replicate among]
  exact inside

end Journal.Inside

theorem PassRun.mem_andThen {P : Event → Prop} {first : PassRun} {next : Graph → PassRun}
    (one : ∀ e ∈ first.events, P e) (other : ∀ e ∈ (next first.graph).events, P e) :
    ∀ e ∈ (first.andThen next).events, P e := by
  unfold PassRun.andThen
  split
  · exact one
  · exact List.forall_mem_append.mpr ⟨one, other⟩

theorem PassRun.andThen_inside {token : Token} {first : PassRun} {next : Graph → PassRun}
    (one : first.events.Inside token) (other : (next first.graph).events.Inside token) :
    (first.andThen next).events.Inside token :=
  PassRun.mem_andThen one other

theorem Inline.pass_events (round : Nat) (ctx : PassContext) (g : Graph) :
    ∀ e ∈ (pass.run round ctx g).events,
      e.method = some ctx.method.token ∧ e.kind = .methodInlined := by
  have all : ∀ ids g, ∀ e ∈ (runAll ctx ids g).events,
      e.method = some ctx.method.token ∧ e.kind = .methodInlined := by
    intro ids
    induction ids with
    | nil => exact fun _ _ => nofun
    | cons id rest ih =>
      intro g
      rw [runAll]
      split
      · exact ih g
      · refine PassRun.mem_andThen ?_ (ih _)
        intro event inside
        obtain ⟨callee, -, rfl⟩ := List.mem_map.mp inside
        exact ⟨rfl, rfl⟩
  exact all g.layout g

theorem Fold.pass_events (round : Nat) (ctx : PassContext) (g : Graph) :
    ∀ e ∈ (pass.run round ctx g).events,
      e.method = some ctx.method.token ∧
        (e.kind = .constantFolded ∨ e.kind = .branchSimplified) := by
  have once : ∀ pinned g id, ∀ e ∈ (runOn ctx pinned g id).events,
      e.method = some ctx.method.token ∧
        (e.kind = .constantFolded ∨ e.kind = .branchSimplified) := by
    intro pinned g id
    unfold runOn
    split
    · exact fun _ => nofun
    · split
      · refine List.forall_mem_append.mpr ⟨?_, ?_⟩
        · intro event inside
          rw [List.eq_of_mem_replicate inside]
          exact ⟨rfl, .inl rfl⟩
        · intro event inside
          split at inside
          · rw [List.mem_singleton.mp inside]
            exact ⟨rfl, .inr rfl⟩
          · cases inside
      · exact fun _ => nofun
  have all : ∀ pinned ids g, ∀ e ∈ (runAll ctx pinned ids g).events,
      e.method = some ctx.method.token ∧
        (e.kind = .constantFolded ∨ e.kind = .branchSimplified) := by
    intro pinned ids
    induction ids with
    | nil => exact fun _ _ => nofun
    | cons id rest ih => exact fun g => PassRun.mem_andThen (once pinned g id) (ih _)
  exact all (pinnedLocals g) g.layout g

theorem Inline.pass_inside (round : Nat) (ctx : PassContext) (g : Graph) :
    (pass.run round ctx g).events.Inside ctx.method.token := by
  intro e inside
  obtain ⟨own, kind⟩ := pass_events round ctx g e inside
  exact ⟨own, by rw [kind]; rfl, by rw [kind]; nofun⟩

theorem Fold.pass_inside (round : Nat) (ctx : PassContext) (g : Graph) :
    (pass.run round ctx g).events.Inside ctx.method.token := by
  intro e inside
  obtain ⟨own, kind | kind⟩ := pass_events round ctx g e inside
  · exact ⟨own, by rw [kind]; rfl, by rw [kind]; nofun⟩
  · exact ⟨own, by rw [kind]; rfl, by rw [kind]; nofun⟩

namespace Schedule

theorem normalize_inside (ctx : PassContext) (g : Graph) :
    (normalize ctx g).events.Inside ctx.method.token := by
  unfold normalize
  split
  · exact .nil _
  · refine ((Journal.Inside.replicate ?_ _).append (.replicate ?_ _)).append (.replicate ?_ _)
    · exact ⟨rfl, rfl, nofun⟩
    · exact ⟨rfl, rfl, nofun⟩
    · exact ⟨rfl, rfl, nofun⟩

theorem runPasses_inside {ctx : PassContext} {passes : List Pass}
    (each : ∀ p ∈ passes, ∀ round g, (p.run round ctx g).events.Inside ctx.method.token)
    (round : Nat) (g : Graph) : (runPasses round ctx passes g).events.Inside ctx.method.token := by
  induction passes generalizing g with
  | nil => exact .nil _
  | cons p rest ih =>
    refine PassRun.andThen_inside (each p List.mem_cons_self round g) ?_
    exact ih (fun q inside => each q (List.mem_cons_of_mem p inside)) _

theorem run_inside (c : Config) (ctx : PassContext) (g : Graph) :
    ((ofConfig c).run ctx g).events.Inside ctx.method.token := by
  have each : ∀ p ∈ (ofConfig c).passes, ∀ round g,
      (p.run round ctx g).events.Inside ctx.method.token := by
    intro p inside round g
    rcases mem_passes_ofConfig inside with rfl | rfl
    · exact Inline.pass_inside round ctx g
    · exact Fold.pass_inside round ctx g
  have all : ∀ rounds round g,
      (runRounds (ofConfig c).passes ctx rounds round g).events.Inside ctx.method.token := by
    intro rounds
    induction rounds with
    | zero => exact fun _ _ => .nil _
    | succ rounds ih =>
      intro round g
      have once : (runRound (ofConfig c).passes round ctx g).events.Inside ctx.method.token :=
        PassRun.andThen_inside (runPasses_inside each round g) (normalize_inside ctx _)
      rw [runRounds]
      split
      · exact once
      · exact once
      · exact once.append (ih (round + 1) _)
  exact all _ _ g

end Schedule

end Unravel
