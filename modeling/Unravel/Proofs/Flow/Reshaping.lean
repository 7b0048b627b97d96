import Unravel.Proofs.Flow.Control

/-!
Splitting, merging and the removal of dead blocks keep the paths of control. Splitting and merging
are one relation between graphs, read in two directions: one graph has two blocks, of which the
first leads to the second and nowhere else, where the other graph has a single one.
-/
namespace Unravel.Graph
variable {g g' : Graph} {pred id : BlockId} {first second joint : Block} {front : List Instr}

/-- Two blocks of a graph that are one block of another graph. The first ends where the second
    begins, or in a jump to it, and control comes to the second from nowhere else. -/
structure Chained (g g' : Graph) (pred id : BlockId) (first second joint : Block)
    (front : List Instr) : Prop where
  before : g.block? pred = some first
  behind : g.block? id = some second
  joined : g'.block? pred = some joint
  gone : g'.block? id = none
  others : ∀ x, x ≠ pred → x ≠ id → g'.block? x = g.block? x
  apart : pred ≠ id
  code : (first.instrs = front ∧ front ≠ []) ∨
    ∃ jump : Instr, jump.isBr = true ∧ first.instrs = front ++ [jump]
  filled : second.instrs ≠ []
  instrs : joint.instrs = front ++ second.instrs
  onward : first.exits = [(.always, id)]
  exits : joint.exits = second.exits
  unled : ∀ {x b kind}, g.block? x = some b → (kind, id) ∈ b.exits → x = pred
  entry : g'.entry = g.entry
  notEntry : id ≠ g.entry
  notCaught : ∀ x, ¬ g.Catches x id
  catches : ∀ {x} t, x ≠ id → (g'.Catches x t ↔ g.Catches x t)
  together : ∀ t, g.Catches id t ↔ g.Catches pred t

namespace Chained

def onto (pred id : BlockId) (front : List Instr) (s : BlockId × Nat) : BlockId × Nat :=
  if s.1 = id then (pred, front.length + s.2) else s

theorem onto_of_ne (front : List Instr) {x : BlockId} (away : x ≠ id) (j : Nat) :
    onto pred id front (x, j) = (x, j) := by
  rw [onto, if_neg away]

theorem onto_self (pred id : BlockId) (front : List Instr) (j : Nat) :
    onto pred id front (id, j) = (pred, front.length + j) := by
  rw [onto, if_pos rfl]

def back (pred id : BlockId) (front : List Instr) (s : BlockId × Nat) : BlockId × Nat :=
  if s.1 = pred ∧ front.length ≤ s.2 then (id, s.2 - front.length) else s

theorem back_of_ne (id : BlockId) (front : List Instr) {x : BlockId} (away : x ≠ pred) (j : Nat) :
    back pred id front (x, j) = (x, j) := by
  rw [back, if_neg fun here => away here.1]

theorem back_of_lt (pred id : BlockId) {j : Nat} (early : j < front.length) :
    back pred id front (pred, j) = (pred, j) := by
  rw [back, if_neg fun here => Nat.not_le.mpr early here.2]

theorem back_of_le (pred id : BlockId) {j : Nat} (late : front.length ≤ j) :
    back pred id front (pred, j) = (id, j - front.length) := by
  rw [back, if_pos ⟨rfl, late⟩]

variable (ch : Chained g g' pred id first second joint front)
include ch

theorem length_joint : joint.instrs.length = front.length + second.instrs.length := by
  rw [ch.instrs, List.length_append]

theorem exit_ne {x t : BlockId} {b : Block} {kind : EdgeKind} (live : g.block? x = some b)
    (away : x ≠ pred) (exits : (kind, t) ∈ b.exits) : t ≠ id := by
  rintro rfl
  exact away (ch.unled live exits)

theorem caught_ne {x t : BlockId} (catches : g.Catches x t) : t ≠ id := by
  rintro rfl
  exact ch.notCaught x catches

theorem matches_second (j : Nat) :
    g.control.Matches g'.control (fun s t => t = onto pred id front s) (id, j)
      (pred, front.length + j) := by
  intro i found
  rw [instr?_control ch.behind] at found
  have there : g'.control.instr? (pred, front.length + j) = some i := by
    rw [instr?_control ch.joined, ch.instrs, List.getElem?_append_right (by omega),
      Nat.add_sub_cancel_left, found]
  have size := ch.length_joint
  refine ⟨.visit there, ?_⟩
  intro kind s' moves
  refine ⟨_, rfl, .step there ?_⟩
  rcases moves_cases ch.behind moves with
    ⟨rfl, rfl, more⟩ | ⟨t, rfl, final, exits⟩ | ⟨t, i, rfl, rfl, here, loud, catches⟩
  · rw [onto_self]
    exact .next ch.joined (by omega)
  · rw [onto_of_ne front (ch.exit_ne ch.behind ch.apart.symm exits)]
    rw [← ch.exits] at exits
    exact .exit ch.joined (by omega) exits
  · rw [onto_of_ne front (ch.caught_ne catches)]
    cases found.symm.trans here
    rw [instr?_control ch.joined] at there
    exact .caught ch.joined there loud ((ch.catches t ch.apart).mpr ((ch.together t).mp catches))

theorem matches_other {x : BlockId} (away : x ≠ pred) (elsewhere : x ≠ id) (j : Nat) :
    g.control.Matches g'.control (fun s t => t = onto pred id front s) (x, j) (x, j) := by
  intro i found
  cases live : g.block? x with
  | none => simp [control, live] at found
  | some b =>
    have live' : g'.block? x = some b := (ch.others x away elsewhere).trans live
    rw [instr?_control live] at found
    have there : g'.control.instr? (x, j) = some i := by rw [instr?_control live', found]
    refine ⟨.visit there, ?_⟩
    intro kind s' moves
    refine ⟨_, rfl, .step there ?_⟩
    rcases moves_cases live moves with
      ⟨rfl, rfl, more⟩ | ⟨t, rfl, final, exits⟩ | ⟨t, i, rfl, rfl, here, loud, catches⟩
    · rw [onto_of_ne front elsewhere]
      exact .next live' more
    · rw [onto_of_ne front (ch.exit_ne live away exits)]
      exact .exit live' final exits
    · rw [onto_of_ne front (ch.caught_ne catches)]
      exact .caught live' here loud ((ch.catches t elsewhere).mpr catches)

theorem matches_front {j : Nat} (early : j < front.length) :
    g.control.Matches g'.control (fun s t => t = onto pred id front s) (pred, j) (pred, j) := by
  have size := ch.length_joint
  have some_ := List.length_pos_of_ne_nil ch.filled
  intro i found
  rw [instr?_control ch.before] at found
  have same : joint.instrs[j]? = some i := by
    rw [ch.instrs, List.getElem?_append_left early, ← found]
    rcases ch.code with ⟨code, -⟩ | ⟨jump, -, code⟩
    · rw [code]
    · rw [code, List.getElem?_append_left early]
  have there : g'.control.instr? (pred, j) = some i := by rw [instr?_control ch.joined, same]
  refine ⟨.visit there, ?_⟩
  intro kind s' moves
  refine ⟨_, rfl, .step there ?_⟩
  rcases moves_cases ch.before moves with
    ⟨rfl, rfl, more⟩ | ⟨t, rfl, final, exits⟩ | ⟨t, i, rfl, rfl, here, loud, catches⟩
  · rw [onto_of_ne front ch.apart]
    exact .next ch.joined (by omega)
  · rw [ch.onward, List.mem_singleton, Prod.mk.injEq] at exits
    obtain ⟨rfl, rfl⟩ := exits
    have next : front.length = j + 1 := by
      rcases ch.code with ⟨code, -⟩ | ⟨jump, -, code⟩
      · rw [← code, final]
      · rw [code, List.length_append, List.length_singleton] at final
        omega
    rw [onto_self, next]
    exact .next ch.joined (by omega)
  · rw [onto_of_ne front (ch.caught_ne catches)]
    cases found.symm.trans here
    exact .caught ch.joined same loud ((ch.catches t ch.apart).mpr catches)

theorem matches_jump {jump : Instr} (jumps : jump.isBr = true)
    (code : first.instrs = front ++ [jump]) :
    g.control.Matches g'.control (fun s t => t = onto pred id front s) (pred, front.length)
      (pred, front.length) := by
  intro i found
  rw [instr?_control ch.before] at found
  have same : i = jump := by simpa [code] using found.symm
  subst same
  have hidden : i.signs = [] := by rw [Instr.signs, if_pos jumps]
  rw [hidden]
  refine ⟨.stop _, ?_⟩
  intro kind s' moves
  refine ⟨_, rfl, ?_⟩
  rcases moves_cases ch.before moves with
    ⟨rfl, rfl, more⟩ | ⟨t, rfl, final, exits⟩ | ⟨t, i, rfl, rfl, here, loud, catches⟩
  · rw [code, List.length_append, List.length_singleton] at more
    omega
  · rw [ch.onward, List.mem_singleton, Prod.mk.injEq] at exits
    obtain ⟨rfl, rfl⟩ := exits
    rw [onto_self]
    exact .refl _ _
  · cases found.symm.trans here
    rw [jumps] at loud
    cases loud

theorem matches_first (j : Nat) :
    g.control.Matches g'.control (fun s t => t = onto pred id front s) (pred, j) (pred, j) := by
  by_cases early : j < front.length
  · exact ch.matches_front early
  · intro i found
    have here := found
    rw [instr?_control ch.before] at here
    have bound := (List.getElem?_eq_some_iff.mp here).1
    rcases ch.code with ⟨code, -⟩ | ⟨jump, jumps, code⟩
    · rw [code] at bound
      exact absurd bound early
    · rw [code, List.length_append, List.length_singleton] at bound
      obtain rfl : j = front.length := by omega
      exact ch.matches_jump jumps code i found

theorem follows : Control.Follows g.control g'.control fun s t => t = onto pred id front s := by
  rintro ⟨x, j⟩ t rfl
  by_cases here : x = id
  · subst here
    rw [onto_self]
    exact ch.matches_second j
  · rw [onto_of_ne front here]
    by_cases before : x = pred
    · subst before
      exact ch.matches_first j
    · exact ch.matches_other before here j

theorem leads_second {j : Nat} {i : Instr} (here : first.instrs[j]? = some i)
    (final : j + 1 = front.length) : g.control.Leads (pred, j) i.signs (id, 0) := by
  have found : g.control.instr? (pred, j) = some i := by rw [instr?_control ch.before, here]
  have chained : (EdgeKind.always, id) ∈ first.exits := by rw [ch.onward, List.mem_singleton]
  rcases ch.code with ⟨code, -⟩ | ⟨jump, jumps, code⟩
  · have step := Control.Leads.step found (Moves.exit ch.before (by rw [code, final]) chained)
    rwa [EdgeKind.signs, List.append_nil] at step
  · have size : first.instrs.length = front.length + 1 := by
      rw [code, List.length_append, List.length_singleton]
    have there : g.control.instr? (pred, j + 1) = some jump := by
      rw [instr?_control ch.before, code, final]
      simp
    have step := Control.Leads.step found
      (show g.control.Moves (pred, j) .always (pred, j + 1) from .next ch.before (by omega))
    rw [EdgeKind.signs, List.append_nil] at step
    exact step.onto (.silent there jumps (.exit ch.before (by omega) chained))

theorem entered (t : BlockId) : g.control.Leads (t, 0) [] (back pred id front (t, 0)) := by
  by_cases here : t = pred
  · subst here
    rcases Nat.eq_zero_or_pos front.length with none | some_
    · rw [back_of_le t id (Nat.le_of_eq none), Nat.zero_sub]
      rcases ch.code with ⟨code, filled⟩ | ⟨jump, jumps, code⟩
      · exact absurd (List.length_eq_zero_iff.mp none) filled
      · have found : g.control.instr? (t, 0) = some jump := by
          rw [instr?_control ch.before, code, List.length_eq_zero_iff.mp none]
          rfl
        refine .silent found jumps (.exit ch.before ?_ (by rw [ch.onward, List.mem_singleton]))
        rw [code, List.length_append, none, List.length_singleton]
    · rw [back_of_lt t id some_]
      exact .refl _ _
  · rw [back_of_ne id front here]
    exact .refl _ _

theorem matched_first {j : Nat} (early : j < front.length) :
    g'.control.Matches g.control (fun s t => t = back pred id front s) (pred, j) (pred, j) := by
  have size := ch.length_joint
  have some_ := List.length_pos_of_ne_nil ch.filled
  intro i found
  rw [instr?_control ch.joined] at found
  have same : first.instrs[j]? = some i := by
    rw [ch.instrs, List.getElem?_append_left early] at found
    rcases ch.code with ⟨code, -⟩ | ⟨jump, -, code⟩
    · rw [code, found]
    · rw [code, List.getElem?_append_left early, found]
  have there : g.control.instr? (pred, j) = some i := by rw [instr?_control ch.before, same]
  have long : front.length ≤ first.instrs.length := by
    rcases ch.code with ⟨code, -⟩ | ⟨jump, -, code⟩
    · rw [code]
    · rw [code, List.length_append]
      omega
  refine ⟨.visit there, ?_⟩
  intro kind s' moves
  refine ⟨_, rfl, ?_⟩
  rcases moves_cases ch.joined moves with
    ⟨rfl, rfl, more⟩ | ⟨t, rfl, final, exits⟩ | ⟨t, i, rfl, rfl, here, loud, catches⟩
  · rcases Nat.lt_or_eq_of_le (Nat.succ_le_of_lt early) with inside | final
    · rw [back_of_lt pred id inside]
      exact .step there (.next ch.before (by omega))
    · rw [back_of_le pred id (Nat.le_of_eq final.symm), final, Nat.sub_self, EdgeKind.signs,
        List.append_nil]
      exact ch.leads_second same final
  · omega
  · cases found.symm.trans here
    have catches' := (ch.catches t ch.apart).mp catches
    exact (Control.Leads.step there (.caught ch.before same loud catches')).onto (ch.entered t)

theorem matched_second (j : Nat) :
    g'.control.Matches g.control (fun s t => t = back pred id front s) (pred, front.length + j)
      (id, j) := by
  have size := ch.length_joint
  intro i found
  rw [instr?_control ch.joined] at found
  have same : second.instrs[j]? = some i := by
    rwa [ch.instrs, List.getElem?_append_right (by omega), Nat.add_sub_cancel_left] at found
  have there : g.control.instr? (id, j) = some i := by rw [instr?_control ch.behind, same]
  refine ⟨.visit there, ?_⟩
  intro kind s' moves
  refine ⟨_, rfl, ?_⟩
  rcases moves_cases ch.joined moves with
    ⟨rfl, rfl, more⟩ | ⟨t, rfl, final, exits⟩ | ⟨t, i, rfl, rfl, here, loud, catches⟩
  · rw [Nat.add_assoc, back_of_le pred id (Nat.le_add_right _ _), Nat.add_sub_cancel_left]
    exact .step there (.next ch.behind (by omega))
  · rw [ch.exits] at exits
    exact (Control.Leads.step there (.exit ch.behind (by omega) exits)).onto (ch.entered t)
  · cases found.symm.trans here
    have catches' := (ch.together t).mpr ((ch.catches t ch.apart).mp catches)
    exact (Control.Leads.step there (.caught ch.behind same loud catches')).onto (ch.entered t)

theorem matched_other {x : BlockId} (away : x ≠ pred) (j : Nat) :
    g'.control.Matches g.control (fun s t => t = back pred id front s) (x, j) (x, j) := by
  intro i found
  cases live : g'.block? x with
  | none => simp [control, live] at found
  | some b =>
    have elsewhere : x ≠ id := by
      rintro rfl
      rw [ch.gone] at live
      cases live
    have live' : g.block? x = some b := (ch.others x away elsewhere).symm.trans live
    rw [instr?_control live] at found
    have there : g.control.instr? (x, j) = some i := by rw [instr?_control live', found]
    refine ⟨.visit there, ?_⟩
    intro kind s' moves
    refine ⟨_, rfl, ?_⟩
    rcases moves_cases live moves with
      ⟨rfl, rfl, more⟩ | ⟨t, rfl, final, exits⟩ | ⟨t, i, rfl, rfl, here, loud, catches⟩
    · rw [back_of_ne id front away]
      exact .step there (.next live' more)
    · exact (Control.Leads.step there (.exit live' final exits)).onto (ch.entered t)
    · have catches' := (ch.catches t elsewhere).mp catches
      exact (Control.Leads.step there (.caught live' here loud catches')).onto (ch.entered t)

theorem followed : Control.Follows g'.control g.control fun s t => t = back pred id front s := by
  rintro ⟨x, j⟩ t rfl
  by_cases here : x = pred
  · subst here
    rcases Nat.lt_or_ge j front.length with early | late
    · rw [back_of_lt x id early]
      exact ch.matched_first early
    · obtain ⟨k, rfl⟩ := Nat.exists_eq_add_of_le late
      rw [back_of_le x id late, Nat.add_sub_cancel_left]
      exact ch.matched_second k
  · rw [back_of_ne id front here]
    exact ch.matched_other here j

theorem trail_iff (shown : List Sign) :
    g.control.Trail (g.entry, 0) shown ↔ g'.control.Trail (g'.entry, 0) shown := by
  constructor
  · intro trail
    refine ch.follows.trail ?_ trail
    rw [onto_of_ne front ch.notEntry.symm, ch.entry]
  · intro trail
    rw [ch.entry] at trail
    exact ch.entered g.entry shown (ch.followed.trail rfl trail)

end Chained

section Regions
variable {r : Region} {removed : List BlockId} {x t : BlockId}

theorem mem_entries : t ∈ r.entries ↔ r.handlerEntry? = some t ∨ r.filterEntry? = some t := by
  simp [Region.entries]

theorem mem_without : x ∈ (r.without removed).tryBlocks ↔ x ∈ r.tryBlocks ∧ x ∉ removed := by
  simp [Region.without, Region.mapLists]

theorem entry_without (stay : ∀ e ∈ r.entries, e ∉ removed) :
    Region.handlerEntry? (r.without removed) = r.handlerEntry? ∧
      Region.filterEntry? (r.without removed) = r.filterEntry? := by
  have first : ∀ {blocks : List BlockId}, (∀ e, blocks.head? = some e → e ∉ removed) →
      (blocks.filter fun b => !removed.contains b).head? = blocks.head? := by
    intro blocks stays
    cases blocks with
    | nil => rfl
    | cons e rest => exact Region.head?_without rfl (stays e rfl)
  exact ⟨first fun e entry => stay e (mem_entries.mpr (.inl entry)),
    first fun e entry => stay e (mem_entries.mpr (.inr entry))⟩

theorem entries_without (stay : ∀ e ∈ r.entries, e ∉ removed) :
    (r.without removed).entries = r.entries := by
  obtain ⟨handler, filter⟩ := entry_without stay
  rw [Region.entries, Region.entries, handler, filter]

theorem stay_of_survives (survives : r.survives removed = true) : ∀ e ∈ r.entries, e ∉ removed := by
  obtain ⟨⟨h, handler, stays⟩, filter, -⟩ := Region.survives_iff.mp survives
  intro e entry
  rcases mem_entries.mp entry with entry | entry
  · cases handler.symm.trans entry
    exact stays
  · exact filter e entry

theorem mem_inherit {head added : BlockId} (away : x ≠ added) :
    x ∈ (r.inherit head added).tryBlocks ↔ x ∈ r.tryBlocks := by
  change x ∈ Region.insertAfter head added r.tryBlocks ↔ x ∈ r.tryBlocks
  by_cases inside : head ∈ r.tryBlocks
  · rw [Region.mem_insertAfter inside]
    exact ⟨fun found => found.resolve_left away, .inr⟩
  · rw [Region.insertAfter_of_not_mem inside]

theorem mem_inherit_added {head added : BlockId} (new : added ∉ r.tryBlocks) :
    added ∈ (r.inherit head added).tryBlocks ↔ head ∈ r.tryBlocks := by
  change added ∈ Region.insertAfter head added r.tryBlocks ↔ head ∈ r.tryBlocks
  by_cases inside : head ∈ r.tryBlocks
  · rw [Region.mem_insertAfter inside]
    exact ⟨fun _ => inside, fun _ => .inl rfl⟩
  · rw [Region.insertAfter_of_not_mem inside]
    exact ⟨fun found => absurd found new, fun found => absurd found inside⟩

theorem entries_inherit (head added : BlockId) : (r.inherit head added).entries = r.entries := by
  simp only [Region.entries, Region.handlerEntry?, Region.filterEntry?, Region.inherit,
    Region.mapLists, Region.head?_insertAfter]

end Regions

theorem exits_of_same {b b' : Block} (kind : b'.kind = b.kind) (targets : b'.targets = b.targets)
    (fall : b'.fall = b.fall) : b'.exits = b.exits := by
  simp only [Block.exits, Block.edges, kind, targets, fall]
  cases b.kind <;> simp [Function.comp_def]

theorem successor_of_exit {b : Block} {kind : EdgeKind} {t : BlockId}
    (exits : (kind, t) ∈ b.exits) : t ∈ b.successors := by
  rw [← Block.map_target_edges]
  obtain ⟨e, edge, same⟩ := List.mem_map.mp exits
  cases same
  exact List.mem_map_of_mem edge

theorem exits_of_chains {b : Block} (chained : chains b id = true) :
    b.exits = [(.always, id)] := by
  unfold chains at chained
  split at chained
  · rename_i kind
    simp [Block.exits, Block.edges, kind, beq_iff_eq.mp chained]
  · rename_i kind
    simp [Block.exits, Block.edges, kind, beq_iff_eq.mp chained]
  · cases chained

theorem chains_cases {b : Block} (chained : chains b id = true) :
    (b.kind = .fallThrough ∨ b.kind = .branch) ∧ b.successors = [id] := by
  unfold chains at chained
  unfold Block.successors
  split at chained
  · rename_i kind
    rw [beq_iff_eq] at chained
    simp [kind, chained]
  · rename_i kind
    rw [beq_iff_eq] at chained
    simp [kind, chained]
  · cases chained

theorem exists_jump {b : Block} (kind : b.kind = .branch) :
    ∃ front jump, b.instrs = front ++ [jump] ∧ jump.isBr = true := by
  have filled : b.instrs ≠ [] := by
    intro empty
    simp [Block.kind, empty] at kind
  obtain ⟨front, jump, code⟩ := Block.exists_last filled
  refine ⟨front, jump, code, Instr.isBr_iff.mpr ?_⟩
  rw [Block.kind_eq code] at kind
  revert kind
  cases jump.flow <;> simp [BlockKind.ofFlow]

theorem openCode_cases {b : Block} (filled : b.instrs ≠ []) :
    (b.instrs = openCode b ∧ openCode b ≠ []) ∨
      ∃ jump : Instr, jump.isBr = true ∧ b.instrs = openCode b ++ [jump] := by
  unfold openCode
  split
  · obtain ⟨front, jump, whole, leaps⟩ := exists_jump ‹_›
    exact .inr ⟨jump, leaps, by rw [whole, List.dropLast_concat]⟩
  · exact .inl ⟨rfl, filled⟩

theorem Joinable.stays (j : Joinable g pred id first second) {r : Region} (inside : r ∈ g.regions) :
    ∀ e ∈ r.entries, e ∉ [id] := by
  intro e entry gone
  rw [List.mem_singleton] at gone
  subst gone
  have none := List.any_eq_false.mp j.notHandler r inside
  apply none
  rw [Region.isEntry, Bool.or_eq_true, beq_iff_eq, beq_iff_eq]
  exact mem_entries.mp entry

theorem chained_of_joinable (l : g.Laid) (j : Joinable g pred id first second) :
    Chained g ((g.drop id).modify pred fun b => join b second) pred id first second
      (join first second) (openCode first) where
  before := j.before
  behind := j.behind
  joined := by rw [block?_joined j, if_neg j.apart, if_pos rfl]
  gone := by rw [block?_joined j, if_pos rfl]
  others x away elsewhere := by rw [block?_joined j, if_neg elsewhere, if_neg away]
  apart := j.apart
  code := openCode_cases (l.filled j.before)
  filled := l.filled j.behind
  instrs := rfl
  onward := exits_of_chains j.chained
  exits := exits_of_same (kind_join first (l.filled j.behind)) rfl rfl
  unled live exits := by
    have listed := mem_predecessors l live (successor_of_exit exits)
    rwa [j.only, List.mem_singleton] at listed
  entry := rfl
  notEntry := j.notEntry
  notCaught := by
    rintro x ⟨r, inside, -, entry⟩
    exact j.stays inside id entry List.mem_cons_self
  catches := by
    intro x t away
    have kept : x ∉ [id] := by simpa using away
    constructor
    · rintro ⟨r', inside, tried, entry⟩
      obtain ⟨r, was, rfl⟩ := List.mem_map.mp inside
      rw [entries_without (j.stays was)] at entry
      exact ⟨r, was, (mem_without.mp tried).1, entry⟩
    · rintro ⟨r, inside, tried, entry⟩
      rw [← entries_without (j.stays inside)] at entry
      exact ⟨r.without [id], List.mem_map_of_mem inside, mem_without.mpr ⟨tried, kept⟩, entry⟩
  together := by
    intro t
    refine exists_congr fun r => and_congr_right fun inside => and_congr_left fun _ => ?_
    have same := List.all_eq_true.mp j.together r inside
    simp only [beq_iff_eq, Region.membership, Prod.mk.injEq] at same
    rw [← List.contains_iff_mem, ← List.contains_iff_mem, same.1]

theorem ne_new_of_contains {x : BlockId} (alive : g.contains x = true) : x ≠ g.slots.length := by
  rintro rfl
  rw [contains, block?_eq_none_of_le (Nat.le_refl _)] at alive
  cases alive

theorem Laid.ne_new_of_region (l : g.Laid) {r : Region} {blocks : List BlockId} {x : BlockId}
    (inside : r ∈ g.regions) (range : blocks ∈ r.lists) (among : x ∈ blocks) :
    x ≠ g.slots.length :=
  ne_new_of_contains ((l.listed x).mp ((l.regions r inside blocks range).subset among))

theorem catches_splitAt {b : Block} {index : Nat} {x t : BlockId} (away : x ≠ g.slots.length) :
    g.Catches x t ↔ (g.splitAt id b index).Catches x t := by
  constructor
  · rintro ⟨r, among, tried, entry⟩
    rw [← entries_inherit id g.slots.length] at entry
    exact ⟨_, List.mem_map_of_mem among, (mem_inherit away).mpr tried, entry⟩
  · rintro ⟨r', among, tried, entry⟩
    obtain ⟨r, was, rfl⟩ := List.mem_map.mp among
    rw [entries_inherit] at entry
    exact ⟨r, was, (mem_inherit away).mp tried, entry⟩

theorem Laid.not_catches_new (l : g.Laid) {b : Block} {index : Nat} (x : BlockId) :
    ¬ (g.splitAt id b index).Catches x g.slots.length := by
  rintro ⟨r', among, -, entry⟩
  obtain ⟨r, was, rfl⟩ := List.mem_map.mp among
  rw [entries_inherit, mem_entries] at entry
  rcases entry with entry | entry
  · exact l.ne_new_of_region was (by simp [Region.lists]) (List.mem_of_mem_head? entry) rfl
  · exact l.ne_new_of_region was (by simp [Region.lists]) (List.mem_of_mem_head? entry) rfl

theorem Consistent.unled_new (c : g.Consistent) {b d : Block} {index : Nat} {x : BlockId}
    {kind : EdgeKind} (live : g.block? id = some b) (inside : index < b.instrs.length)
    (found : (g.splitAt id b index).block? x = some d) (exits : (kind, g.slots.length) ∈ d.exits) :
    x = id := by
  have leads := successor_of_exit exits
  rw [block?_splitAt b index live] at found
  split at found
  · cases found
    rw [successors_tailOf inside] at leads
    exact absurd rfl (ne_new_of_contains (c.closed live _ leads))
  · split at found
    · assumption
    · exact absurd rfl (ne_new_of_contains (c.closed found _ leads))

theorem chained_of_split (c : g.Consistent) {b : Block} {index : Nat} (live : g.block? id = some b)
    (cut : 0 < index) (inside : index < b.instrs.length) :
    Chained (g.splitAt id b index) g id g.slots.length (headOf b index g.slots.length)
      (tailOf b index g.slots.length) b (b.instrs.take index) where
  before := by
    rw [block?_splitAt b index live, if_pos rfl,
      if_neg (ne_new_of_contains (contains_iff.mpr ⟨b, live⟩))]
  behind := by rw [block?_splitAt b index live, if_pos rfl]
  joined := live
  gone := block?_eq_none_of_le (Nat.le_refl _)
  others x away elsewhere := by rw [block?_splitAt b index live, if_neg elsewhere, if_neg away]
  apart := ne_new_of_contains (contains_iff.mpr ⟨b, live⟩)
  code := by
    refine .inl ⟨rfl, ?_⟩
    rw [ne_eq, List.take_eq_nil_iff, not_or]
    exact ⟨by omega, c.filled live⟩
  filled := by simpa [tailOf] using inside
  instrs := (List.take_append_drop index b.instrs).symm
  onward := by
    refine exits_of_chains ?_
    simp only [chains, kind_headOf (c.straight live) cut inside]
    simp [headOf]
  exits := (exits_of_same (kind_tailOf inside) rfl rfl).symm
  unled found exits := c.unled_new live inside found exits
  entry := rfl
  notEntry := (ne_new_of_contains c.laid.entry_live).symm
  notCaught := c.laid.not_catches_new
  catches _ away := catches_splitAt away
  together := by
    intro t
    refine exists_congr fun r' => and_congr_right fun among => and_congr_left fun _ => ?_
    obtain ⟨r, was, rfl⟩ := List.mem_map.mp among
    rw [mem_inherit (ne_new_of_contains (contains_iff.mpr ⟨b, live⟩)), mem_inherit_added]
    exact fun tried => c.laid.ne_new_of_region was (by simp [Region.lists]) tried rfl

theorem trail_mergeUpTo (c : g.Consistent) (n : Nat) (shown : List Sign) :
    g.control.Trail (g.entry, 0) shown ↔
      (g.mergeUpTo n).2.control.Trail ((g.mergeUpTo n).2.entry, 0) shown := by
  refine (mergeUpTo_keeps (P := fun h => h.Consistent ∧ (g.control.Trail (g.entry, 0) shown ↔
    h.control.Trail (h.entry, 0) shown)) ?_ n ⟨c, Iff.rfl⟩).2
  rintro h pred id first second ⟨c, same⟩ j
  exact ⟨c.joined j, same.trans ((chained_of_joinable c.laid j).trail_iff shown)⟩

theorem trail_split (c : g.Consistent) (id : BlockId) (index : Nat) (shown : List Sign) :
    g.control.Trail (g.entry, 0) shown ↔
      (g.split id index).1.control.Trail ((g.split id index).1.entry, 0) shown := by
  rcases split_cases g id index fun b live => c.listed_of_live live with
    same | ⟨b, live, cut, inside, same⟩
  · rw [same]
  · rw [same]
    exact ((chained_of_split c live cut inside).trail_iff shown).symm

theorem exits_pruneEdges {removed : List BlockId} {b : Block}
    (clean : ∀ s ∈ b.successors, s ∉ removed) : (pruneEdges removed b).exits = b.exits := by
  rw [Block.exits, Block.exits, edges_pruneEdges clean]

section Removal
variable {n : Nat} {x t : BlockId} {b : Block}

theorem Reached.successor (c : g.Consistent) (reached : g.Reached x) (live : g.block? x = some b)
    (leads : t ∈ b.successors) : g.Reached t :=
  reached.step (mem_leadsTo.mpr (.inl ⟨b, live, leads⟩)) (c.closed live t leads)

theorem Reached.exit (c : g.Consistent) (reached : g.Reached x) (live : g.block? x = some b)
    {kind : EdgeKind} (exits : (kind, t) ∈ b.exits) : g.Reached t :=
  reached.successor c live (successor_of_exit exits)

theorem Catches.live (c : g.Consistent) (catches : g.Catches x t) : g.contains t = true := by
  obtain ⟨r, inside, -, entry⟩ := catches
  refine (c.listed t).mp ?_
  rcases mem_entries.mp entry with entry | entry
  · exact (c.regions r inside _ (by simp [Region.lists])).subset (List.mem_of_mem_head? entry)
  · exact (c.regions r inside _ (by simp [Region.lists])).subset (List.mem_of_mem_head? entry)

theorem Reached.caught (c : g.Consistent) (reached : g.Reached x) (catches : g.Catches x t) :
    g.Reached t := by
  have live := catches.live c
  obtain ⟨r, inside, tried, entry⟩ := catches
  exact reached.step (mem_leadsTo.mpr (.inr ⟨r, inside, tried, mem_entries.mp entry⟩)) live

theorem Reached.block (c : g.Consistent) (done : g.remove g.unreachable = .ok (n, g'))
    (reached : g.Reached x) (live : g.block? x = some b) :
    ∃ b', g'.block? x = some b' ∧ b'.instrs = b.instrs ∧ b'.exits = b.exits := by
  refine ⟨pruneEdges g.unreachable b, ?_, rfl, exits_pruneEdges ?_⟩
  · rw [block?_remove done, if_neg (reached.stays c.laid), live]
    rfl
  · exact fun s leads => (reached.successor c live leads).stays c.laid

theorem catches_remove (c : g.Consistent) (guarded : g.Guarded)
    (done : g.remove g.unreachable = .ok (n, g')) (reached : g.Reached x) :
    g'.Catches x t ↔ g.Catches x t := by
  obtain ⟨-, -, rfl⟩ := remove_ok done
  constructor
  · rintro ⟨r', inside, tried, entry⟩
    obtain ⟨r, was, rfl⟩ := List.mem_map.mp inside
    obtain ⟨was, survives⟩ := List.mem_filter.mp was
    rw [entries_without (stay_of_survives survives)] at entry
    exact ⟨r, was, (mem_without.mp tried).1, entry⟩
  · rintro ⟨r, inside, tried, entry⟩
    have survives := survives_of_reached c.laid inside (guarded r inside).handles tried reached
    rw [← entries_without (stay_of_survives survives)] at entry
    exact ⟨_, List.mem_map_of_mem (List.mem_filter.mpr ⟨inside, survives⟩),
      mem_without.mpr ⟨tried, reached.stays c.laid⟩, entry⟩

end Removal

theorem follows_of_same {P : BlockId → Prop}
    (blocks : ∀ {x b}, P x → g.block? x = some b →
      ∃ b', g'.block? x = some b' ∧ b'.instrs = b.instrs ∧ b'.exits = b.exits)
    (catches : ∀ {x t}, P x → g.Catches x t → g'.Catches x t)
    (exit : ∀ {x b kind t}, P x → g.block? x = some b → (kind, t) ∈ b.exits → P t)
    (caught : ∀ {x t}, P x → g.Catches x t → P t) :
    Control.Follows g.control g'.control fun s s' => s = s' ∧ P s.1 := by
  rintro ⟨x, j⟩ _ ⟨rfl, here⟩ i found
  cases live : g.block? x with
  | none => simp [control, live] at found
  | some b =>
    obtain ⟨b', live', instrs, exits⟩ := blocks here live
    rw [instr?_control live] at found
    have there : g'.control.instr? (x, j) = some i := by rw [instr?_control live', instrs, found]
    refine ⟨.visit there, ?_⟩
    intro kind s' moves
    rcases moves_cases live moves with
      ⟨rfl, rfl, more⟩ | ⟨t, rfl, final, leaves⟩ | ⟨t, i, rfl, rfl, at_, loud, leaves⟩
    · exact ⟨_, ⟨rfl, here⟩, .step there (.next live' (by rwa [instrs]))⟩
    · refine ⟨_, ⟨rfl, exit here live leaves⟩, .step there (.exit live' (by rwa [instrs]) ?_)⟩
      rwa [exits]
    · refine ⟨_, ⟨rfl, caught here leaves⟩,
        .step there (.caught live' ?_ loud (catches here leaves))⟩
      rwa [instrs]

theorem trail_remove {n : Nat} (c : g.Consistent) (guarded : g.Guarded)
    (done : g.remove g.unreachable = .ok (n, g')) (shown : List Sign) :
    g.control.Trail (g.entry, 0) shown ↔ g'.control.Trail (g'.entry, 0) shown := by
  have entry : g'.entry = g.entry := by
    obtain ⟨-, -, rfl⟩ := remove_ok done
    rfl
  have same : ∀ {x b'}, g.Reached x → g'.block? x = some b' →
      ∃ b, g.block? x = some b ∧ b.instrs = b'.instrs ∧ b.exits = b'.exits := by
    intro x b' reached live'
    obtain ⟨b, live⟩ := contains_iff.mp (reached.live c.laid)
    obtain ⟨_, found, instrs, exits⟩ := reached.block c done live
    cases live'.symm.trans found
    exact ⟨b, live, instrs.symm, exits.symm⟩
  rw [entry]
  constructor
  · refine (follows_of_same (P := g.Reached) ?_ ?_ ?_ ?_).trail ⟨rfl, .entry⟩
    · exact fun reached live => reached.block c done live
    · exact fun reached => (catches_remove c guarded done reached).mpr
    · exact fun reached live leaves => reached.exit c live leaves
    · exact fun reached leaves => reached.caught c leaves
  · refine (follows_of_same (P := g.Reached) ?_ ?_ ?_ ?_).trail ⟨rfl, .entry⟩
    · exact same
    · exact fun reached => (catches_remove c guarded done reached).mp
    · intro x b' kind t reached live' leaves
      obtain ⟨b, live, -, exits⟩ := same reached live'
      rw [← exits] at leaves
      exact reached.exit c live leaves
    · exact fun reached leaves =>
        reached.caught c ((catches_remove c guarded done reached).mp leaves)

theorem trail_removeDead {n : Nat} (c : g.Consistent) (guarded : g.Guarded)
    (done : g.removeDead = .ok (n, g')) (shown : List Sign) :
    g.control.Trail (g.entry, 0) shown ↔ g'.control.Trail (g'.entry, 0) shown := by
  rcases removeDead_ok done with ⟨-, -, rfl⟩ | ⟨-, done⟩
  · exact Iff.rfl
  · exact trail_remove c guarded done shown

end Unravel.Graph
