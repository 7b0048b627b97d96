import Unravel.Proofs.Flow.Control
import Unravel.Proofs.Flow.Coverage
import Unravel.Proofs.Flow.Refinement

namespace Unravel

/-- The ways out of an instruction: to its targets, and on to what follows it. -/
def Flow.exits {α : Type} (targets : List α) (onward : Option α) : Flow → List (EdgeKind × α)
  | .sequential | .call => onward.toList.map fun t => (.always, t)
  | .unconditional => targets.head?.toList.map fun t => (.always, t)
  | .leave => targets.head?.toList.map fun t => (.leave, t)
  | .conditional =>
    (targets.head?.toList.map fun t => (.whenTrue, t)) ++ onward.toList.map fun t => (.whenFalse, t)
  | .switch =>
    (targets.zipIdx.map fun (t, n) => (.onCase n, t)) ++ onward.toList.map fun t => (.otherwise, t)
  | .returns | .throw | .endFinally | .endFilter => []

def Body.exits (body : Body) (n : Nat) (i : Instr) : List (EdgeKind × Nat) :=
  i.flow.exits (i.targets.filterMap body.index?)
    (if n + 1 < body.instrs.length then some (n + 1) else none)

section Related
variable {α β : Type} {R : α → β → Prop}

abbrev ExitsAlike (R : α → β → Prop) : List (EdgeKind × α) → List (EdgeKind × β) → Prop :=
  List.Forall₂ fun p q => p.1 = q.1 ∧ R p.2 q.2

theorem forall₂_toList {f : α → EdgeKind × α} {f' : β → EdgeKind × β} {o : Option α} {p : Option β}
    (rel : Option.Rel R o p) (each : ∀ {x y}, R x y → (f x).1 = (f' y).1 ∧ R (f x).2 (f' y).2) :
    ExitsAlike R (o.toList.map f) (p.toList.map f') := by
  cases rel with
  | none => exact .nil
  | some related => exact .cons (each related) .nil

theorem forall₂_zipIdx {xs : List α} {ys : List β} (all : List.Forall₂ R xs ys) (n : Nat) :
    ExitsAlike R ((xs.zipIdx n).map fun (t, n) => (.onCase n, t))
      ((ys.zipIdx n).map fun (t, n) => (.onCase n, t)) := by
  induction all generalizing n with
  | nil => exact .nil
  | cons related _ ih => exact .cons ⟨rfl, related⟩ (ih (n + 1))

/-- Where targets and what follows are related, ways out are. A switch looks at all of its targets,
    the others at the first. -/
theorem Flow.exits_alike {flow : Flow} {xs : List α} {ys : List β} {o : Option α} {p : Option β}
    (first : flow.isJump = true → flow ≠ .switch → Option.Rel R xs.head? ys.head?)
    (all : flow = .switch → List.Forall₂ R xs ys)
    (onward : flow.fallsThrough = true → Option.Rel R o p) :
    ExitsAlike R (flow.exits xs o) (flow.exits ys p) := by
  cases flow with
  | sequential | call => exact forall₂_toList (onward rfl) fun related => ⟨rfl, related⟩
  | unconditional | leave =>
    exact forall₂_toList (first rfl (by decide)) fun related => ⟨rfl, related⟩
  | conditional =>
    exact List.rel_append (forall₂_toList (first rfl (by decide)) fun related => ⟨rfl, related⟩)
      (forall₂_toList (onward rfl) fun related => ⟨rfl, related⟩)
  | switch =>
    exact List.rel_append (forall₂_zipIdx (all rfl) 0)
      (forall₂_toList (onward rfl) fun related => ⟨rfl, related⟩)
  | returns | throw | endFinally | endFilter => exact .nil

theorem exists_right {xs : List (EdgeKind × α)} {ys : List (EdgeKind × β)}
    (alike : ExitsAlike R xs ys) {kind : EdgeKind} {x : α} (inside : (kind, x) ∈ xs) :
    ∃ y, (kind, y) ∈ ys ∧ R x y := by
  obtain ⟨⟨kind', y⟩, there, rfl, related⟩ := exists_of_forall₂_mem alike inside
  exact ⟨y, there, related⟩

theorem exists_left {xs : List (EdgeKind × α)} {ys : List (EdgeKind × β)}
    (alike : ExitsAlike R xs ys) {kind : EdgeKind} {y : β} (inside : (kind, y) ∈ ys) :
    ∃ x, (kind, x) ∈ xs ∧ R x y := by
  obtain ⟨⟨kind', x⟩, there, same, related⟩ := exists_of_forall₂_mem alike.flip inside
  dsimp only at same
  subst same
  exact ⟨x, there, related⟩

theorem forall₂_filterMap {γ : Type} {f : γ → Option β} {xs : List α} {names : List γ}
    (all : List.Forall₂ (fun x name => ∃ y, R x y ∧ f name = some y) xs names) :
    List.Forall₂ R xs (names.filterMap f) := by
  induction all with
  | nil => exact .nil
  | cons here _ ih =>
    obtain ⟨y, related, found⟩ := here
    rw [List.filterMap_cons_some found]
    exact .cons related ih

end Related

theorem Block.exits_eq {b : Block} {j : Nat} {i : Instr} (here : b.instrs[j]? = some i)
    (final : j + 1 = b.instrs.length) : b.exits = i.flow.exits b.targets b.fall := by
  have kind := Graph.kind_of_last here final
  simp only [Block.exits, Block.edges, kind]
  cases i.flow <;> simp [BlockKind.ofFlow, Flow.exits, Function.comp_def]

theorem Flow.exits_plain {α : Type} {flow : Flow} (plain : flow.endsBlock = false)
    (targets : List α) (onward : Option α) :
    flow.exits targets onward = onward.toList.map fun t => (.always, t) := by
  cases flow with
  | sequential | call => rfl
  | _ => cases plain

theorem Body.exits_plain {body : Body} {n : Nat} {i : Instr} (plain : i.isTerminal = false)
    (more : n + 1 < body.instrs.length) : body.exits n i = [(.always, n + 1)] := by
  rw [Body.exits, Flow.exits_plain plain, if_pos more]
  rfl

theorem Instr.opcode_of_mark {i x : Instr} (same : x.mark = i.mark) : x.opcode = i.opcode :=
  congrArg (fun m => m.2.1) same

theorem Instr.isBr_of_mark {i x : Instr} (same : x.mark = i.mark) : x.isBr = i.isBr := by
  rw [Instr.isBr, Instr.opcode_of_mark same]
  rfl

theorem Instr.signs_of_mark {i x : Instr} (same : x.mark = i.mark) : x.signs = i.signs := by
  rw [Instr.signs, Instr.signs, Instr.isBr_of_mark same, same]

namespace Graph
variable {g : Graph} {id : BlockId} {b : Block} {written : List Piece} {last : Nat} {body : Body}

def Arrives (written : List Piece) (body : Body) (t : BlockId) (n : Nat) : Prop :=
  Begins written t n ∨ ∃ jump goal, body.instrs[n]? = some jump ∧ jump.isBr = true ∧
    body.exits n jump = [(.always, goal)] ∧ Begins written t goal

namespace Written
variable {start j : Nat} {i x : Instr}

theorem exists_marked (w : Written g written last body) (begins : Begins written id start)
    (live : g.block? id = some b) (here : b.instrs[j]? = some i) :
    ∃ x, body.instrs[start + j]? = some x ∧ x.mark = i.mark := by
  have inside := (List.getElem?_eq_some_iff.mp here).1
  rcases Nat.lt_or_eq_of_le (Nat.succ_le_of_lt inside) with early | final
  · obtain ⟨offset, found⟩ := w.instr_early begins live here early
    exact ⟨_, found, mark_of_plain rfl⟩
  · have kind := kind_of_last here final
    by_cases jump : i.isJump = true
    · obtain ⟨x, found, opcode⟩ := w.exists_instr begins live here
      refine ⟨x, found, mark_of_jump jump ?_ opcode⟩
      obtain ⟨link, y, offset, -, linked, found'⟩ := w.instr_last begins live here final
      cases found.symm.trans found'
      exact (linkDraft_keeps linked).1
    · have kept : b.kind = .fallThrough ∨ b.kind = .exit := by
        rw [kind]
        rw [Instr.isJump] at jump
        revert jump
        cases i.flow <;> simp [Flow.isJump, BlockKind.ofFlow]
      obtain ⟨offset, found⟩ := w.last_kept begins live here final kept
      exact ⟨_, found, mark_of_plain rfl⟩

theorem head_arrives (w : Written g written last body) (c : g.Consistent)
    (begins : Begins written id start) (live : g.block? id = some b)
    (here : b.instrs[j]? = some i) (final : j + 1 = b.instrs.length)
    (found : body.instrs[start + j]? = some x) (jump : i.flow.isJump = true)
    (other : i.flow ≠ .switch) :
    Option.Rel (Arrives written body) b.targets.head? (x.targets.filterMap body.index?).head? := by
  have kind : b.kind = .branch ∨ b.kind = .leave ∨ b.kind = .conditional := by
    rw [kind_of_last here final]
    revert jump other
    cases i.flow <;> simp [Flow.isJump, BlockKind.ofFlow]
  obtain ⟨t, m, goal, offset, head, there, index, made⟩ := w.last_jump c begins live here final kind
  cases found.symm.trans made
  rw [Instr.targets_of_jump jump m offset, List.filterMap_cons_some index, head]
  exact .some (.inl there)

theorem cases_arrive (w : Written g written last body) (c : g.Consistent)
    (begins : Begins written id start) (live : g.block? id = some b)
    (here : b.instrs[j]? = some i) (final : j + 1 = b.instrs.length)
    (found : body.instrs[start + j]? = some x) (switches : i.flow = .switch) :
    List.Forall₂ (Arrives written body) b.targets (x.targets.filterMap body.index?) := by
  have kind : b.kind = .switch := by
    rw [kind_of_last here final, switches]
    rfl
  obtain ⟨ms, offset, starts, made⟩ := w.last_switch c begins live here final kind
  cases found.symm.trans made
  have targets : ({ i with operand := .switch ms, offset } : Instr).targets = ms := by
    simp [Instr.targets, Opcode.eq_switch_of_flow switches]
  rw [targets]
  refine forall₂_filterMap (starts.imp ?_)
  rintro t m ⟨goal, there, index⟩
  exact ⟨goal, .inl there, index⟩

theorem fall_arrives (w : Written g written last body) (c : g.Consistent)
    (begins : Begins written id start) (live : g.block? id = some b)
    (here : b.instrs[j]? = some i) (final : j + 1 = b.instrs.length)
    (complete : b.Complete) (falls : i.flow.fallsThrough = true) :
    Option.Rel (Arrives written body) b.fall
      (if start + j + 1 < body.instrs.length then some (start + j + 1) else none) := by
  have open_ : b.kind = .fallThrough ∨ b.kind = .conditional ∨ b.kind = .switch := by
    rw [kind_of_last here final]
    exact BlockKind.ofFlow_open.mpr falls
  obtain ⟨t, onto⟩ := Option.ne_none_iff_exists'.mp (complete.fall open_)
  have next : start + b.instrs.length = start + j + 1 := by omega
  rw [onto]
  rcases w.behind c begins live onto open_ with
    direct | ⟨f, m, goal, offset, added, -, there, index⟩
  · rw [next] at direct
    rw [if_pos (w.begins_lt c direct)]
    exact .some (.inl direct)
  · rw [next] at added
    rw [if_pos (List.getElem?_eq_some_iff.mp added).1]
    refine .some (.inr ⟨_, goal, added, rfl, ?_, there⟩)
    simp [Body.exits, Instr.flow, Opcode.flow, Flow.exits, Instr.targets, Instr.isJump, Flow.isJump,
      index]

theorem exits_last (w : Written g written last body) (c : g.Consistent)
    (begins : Begins written id start) (live : g.block? id = some b)
    (here : b.instrs[j]? = some i) (final : j + 1 = b.instrs.length)
    (complete : b.Complete) (found : body.instrs[start + j]? = some x) (same : x.mark = i.mark) :
    ExitsAlike (Arrives written body) b.exits (body.exits (start + j) x) := by
  have flow : x.flow = i.flow := by rw [Instr.flow, Instr.opcode_of_mark same, Instr.flow]
  rw [Block.exits_eq here final, Body.exits, flow]
  exact Flow.exits_alike (w.head_arrives c begins live here final found)
    (w.cases_arrive c begins live here final found)
    (w.fall_arrives c begins live here final complete)

theorem exits_early (w : Written g written last body) (c : g.Consistent)
    (begins : Begins written id start) (live : g.block? id = some b)
    (here : b.instrs[j]? = some i) (early : j + 1 < b.instrs.length) (same : x.mark = i.mark) :
    body.exits (start + j) x = [(.always, start + (j + 1))] := by
  obtain ⟨y, next, -⟩ := w.exists_instr begins live (List.getElem?_eq_getElem early)
  refine Body.exits_plain ?_ (List.getElem?_eq_some_iff.mp next).1
  cases ends : x.isTerminal with
  | false => rfl
  | true =>
    rw [Instr.isTerminal, Instr.flow, Instr.opcode_of_mark same] at ends
    have := c.last_of_terminal live here ends
    omega

end Written
end Graph
end Unravel
