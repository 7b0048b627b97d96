import Unravel.Proofs.Graph.History

namespace Unravel

section Gather
variable {next : Nat → List Nat} {live : Nat → Bool}

theorem gather_sound {P : Nat → Prop} (keeps : ∀ {x y}, P x → y ∈ next x → live y = true → P y)
    {fuel : Nat} {work seen : List Nat} (held : ∀ x ∈ seen, P x)
    (due : ∀ x ∈ work, live x = true → P x) : ∀ x ∈ gather next live fuel work seen, P x := by
  fun_induction gather next live fuel work seen with
  | case1 fuel x work seen passed ih =>
    exact ih held fun y inside => due y (List.mem_cons_of_mem x inside)
  | case2 fuel x work seen fresh ih =>
    simp only [Bool.or_eq_true, Bool.not_eq_true', not_or, Bool.not_eq_false] at fresh
    have here : P x := due x List.mem_cons_self fresh.1
    refine ih ?_ ?_
    · intro y inside
      rcases List.mem_cons.mp inside with rfl | old
      · exact here
      · exact held y old
    · intro y inside alive
      rcases List.mem_append.mp inside with new | old
      · exact keeps here new alive
      · exact due y (List.mem_cons_of_mem x old) alive
  | case3 => exact held

def pending (next : Nat → List Nat) (all seen : List Nat) : Nat :=
  ((all.filter fun x => !seen.contains x).flatMap next).length

theorem pending_cons (next : Nat → List Nat) {all seen : List Nat} {x : Nat} (nodup : all.Nodup)
    (listed : x ∈ all) (fresh : x ∉ seen) :
    (next x).length + pending next all (x :: seen) = pending next all seen := by
  set left := all.filter fun y => !seen.contains y with rest
  have inside : x ∈ left := List.mem_filter.mpr ⟨listed, by simpa using fresh⟩
  have fewer : all.filter (fun y => !(x :: seen).contains y) = left.erase x := by
    rw [(nodup.filter _).erase_eq_filter, List.filter_filter]
    apply List.filter_congr
    intro y _
    by_cases same : y = x <;> simp [same]
  have all_ := ((List.perm_cons_erase inside).flatMap_right next).length_eq
  rw [List.flatMap_cons, List.length_append] at all_
  rw [pending, pending, fewer, ← rest, all_]

theorem gather_complete {all : List Nat} (nodup : all.Nodup)
    (listed : ∀ x, live x = true → x ∈ all) {fuel : Nat} {work seen : List Nat}
    (enough : work.length + pending next all seen ≤ fuel)
    (due : ∀ x ∈ seen, ∀ y ∈ next x, live y = true → y ∈ seen ∨ y ∈ work) :
    (∀ x ∈ seen, x ∈ gather next live fuel work seen) ∧
      (∀ x ∈ work, live x = true → x ∈ gather next live fuel work seen) ∧
      ∀ x ∈ gather next live fuel work seen, ∀ y ∈ next x, live y = true →
        y ∈ gather next live fuel work seen := by
  fun_induction gather next live fuel work seen with
  | case1 fuel x work seen passed ih =>
    have known : live x = true → x ∈ seen := by
      intro alive
      simpa [alive] using passed
    rw [List.length_cons] at enough
    obtain ⟨old, new, closed⟩ := ih (by omega) fun y inside z leads alive => by
      rcases due y inside z leads alive with seen | later
      · exact .inl seen
      · rcases List.mem_cons.mp later with rfl | later
        · exact .inl (known alive)
        · exact .inr later
    refine ⟨old, ?_, closed⟩
    intro y inside alive
    rcases List.mem_cons.mp inside with rfl | later
    · exact old y (known alive)
    · exact new y later alive
  | case2 fuel x work seen fresh ih =>
    simp only [Bool.or_eq_true, Bool.not_eq_true', not_or, Bool.not_eq_false,
      List.contains_iff_mem] at fresh
    -- Following `x` is paid for with its edges, which are not pending any more.
    have cost := pending_cons next nodup (listed x fresh.1) fresh.2
    rw [List.length_cons] at enough
    rw [List.length_append] at ih
    obtain ⟨old, new, closed⟩ := ih (by omega) fun y inside z leads alive => by
      rcases List.mem_cons.mp inside with rfl | inside
      · exact .inr (List.mem_append_left _ leads)
      · rcases due y inside z leads alive with seen | later
        · exact .inl (List.mem_cons_of_mem x seen)
        · rcases List.mem_cons.mp later with rfl | later
          · exact .inl List.mem_cons_self
          · exact .inr (List.mem_append_right _ later)
    refine ⟨fun y inside => old y (List.mem_cons_of_mem x inside), ?_, closed⟩
    intro y inside alive
    rcases List.mem_cons.mp inside with rfl | later
    · exact old y List.mem_cons_self
    · exact new y (List.mem_append_right _ later) alive
  | case3 fuel work seen stops =>
    cases work with
    | nil =>
      refine ⟨fun x inside => inside, fun x inside => (List.not_mem_nil inside).elim, ?_⟩
      intro x inside y leads alive
      exact (due x inside y leads alive).resolve_right List.not_mem_nil
    | cons x work =>
      cases fuel with
      | zero => simp at enough
      | succ fuel => exact (stops fuel x work rfl rfl).elim

end Gather

namespace Graph
variable {g g' : Graph}

/-- Control can come to a block from the entry. -/
inductive Reached (g : Graph) : BlockId → Prop where
  | entry : Reached g g.entry
  | step {a b : BlockId} (from_ : Reached g a) (leads : b ∈ g.leadsTo a)
      (live : g.contains b = true) : Reached g b

theorem Laid.entry_live (l : g.Laid) : g.contains g.entry = true :=
  (l.listed _).mp (List.mem_of_mem_head? l.entryFirst)

theorem Reached.live (l : g.Laid) {id : BlockId} (reached : g.Reached id) :
    g.contains id = true := by
  cases reached with
  | entry => exact l.entry_live
  | step from_ leads live => exact live

theorem mem_reachable (l : g.Laid) {id : BlockId} : id ∈ g.reachable ↔ g.Reached id := by
  rw [reachable, List.mem_filter, List.contains_iff_mem]
  constructor
  · rintro ⟨-, gathered⟩
    refine gather_sound (fun reached leads live => reached.step leads live) ?_ ?_ id gathered
    · intro x inside
      cases inside
    · intro x inside _
      rw [List.mem_singleton.mp inside]
      exact .entry
  · have enough : [g.entry].length + pending g.leadsTo g.layout [] ≤ g.reachBudget := by
      simp [pending, reachBudget]
    obtain ⟨-, start, closed⟩ := gather_complete l.nodup
      (fun x (live : g.contains x = true) => (l.listed x).mpr live) enough
      (fun x inside => (List.not_mem_nil inside).elim)
    intro reached
    refine ⟨(l.listed id).mpr (reached.live l), ?_⟩
    induction reached with
    | entry => exact start _ List.mem_cons_self l.entry_live
    | step _ leads live ih => exact closed _ ih _ leads live

theorem mem_unreachable (l : g.Laid) {id : BlockId} :
    id ∈ g.unreachable ↔ id ∈ g.layout ∧ ¬ g.Reached id := by
  rw [unreachable, List.mem_filter, ← mem_reachable l]
  simp

theorem Reached.stays (l : g.Laid) {id : BlockId} (reached : g.Reached id) :
    id ∉ g.unreachable :=
  fun gone => ((mem_unreachable l).mp gone).2 reached

theorem Reached.leads_stays (l : g.Laid) {id s : BlockId} (reached : g.Reached id)
    (leads : s ∈ g.leadsTo id) : s ∉ g.unreachable := by
  intro gone
  obtain ⟨listed, dead⟩ := (mem_unreachable l).mp gone
  exact dead (reached.step leads ((l.listed s).mp listed))

theorem unreachable_eq_nil (l : g.Laid) :
    g.unreachable = [] ↔ ∀ id ∈ g.layout, g.Reached id := by
  rw [List.eq_nil_iff_forall_not_mem]
  refine forall_congr' fun id => ?_
  rw [mem_unreachable l, not_and_not_right]

end Graph
end Unravel
