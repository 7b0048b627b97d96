import Unravel.Proofs.Graph.Repartition

/-!
Edges that a block stores but does not follow. A block keeps the place it was cut to fall to even
where its last instruction never falls, and dropping that instruction makes the edge count again.
Removal clears such edges and a merge does not, so before any merge every stored edge leads to a
live block, and afterwards only the edges that blocks follow are sure to.
-/
namespace Unravel

def Block.stored (b : Block) : List BlockId := b.targets ++ b.fall.toList

theorem Block.successors_subset_stored (b : Block) : b.successors ⊆ b.stored := by
  intro s leads
  have first : ∀ {t}, b.targets.head? = some t → t ∈ b.targets := List.mem_of_mem_head?
  unfold successors at leads
  unfold stored
  split at leads <;> simp only [List.mem_append, Option.mem_toList] at leads ⊢
  · exact .inr leads
  · exact .inl (first leads)
  · exact .inl (first leads)
  · exact leads.imp_left first
  · exact leads
  · cases leads

namespace Graph
variable {g g' : Graph} {id : BlockId} {b : Block}

def Sealed (g : Graph) : Prop :=
  ∀ ⦃id b⦄, g.block? id = some b → ∀ s ∈ b.stored, g.contains s = true

namespace Sealed

theorem tight (sealed_ : g.Sealed) : g.Tight := fun _ b live s leads =>
  sealed_ live s (b.successors_subset_stored leads)

theorem modify (sealed_ : g.Sealed) (live : g.block? id = some b) {f : Block → Block}
    (stays : ∀ s ∈ (f b).stored, g.contains s = true) : (g.modify id f).Sealed := by
  have same : g.modify id f = g.rewritten id f g.nextInstr := rfl
  rw [same]
  intro other d found s stored
  rw [contains_rewritten]
  rcases block?_rewritten live found with ⟨rfl, rfl⟩ | ⟨-, found⟩
  · exact stays s stored
  · exact sealed_ found s stored

theorem redirect (sealed_ : g.Sealed) {target : BlockId} (done : g.redirect id target = .ok g') :
    g'.Sealed := by
  obtain ⟨destination, b, there, live, -, rfl⟩ := redirect_ok done
  refine sealed_.modify live fun s stored => ?_
  have same : s = target := by simpa [Block.stored] using stored
  rw [same]
  exact contains_iff.mpr ⟨destination, there⟩

theorem dropTerminator (sealed_ : g.Sealed) (done : g.dropTerminator id = .ok g') :
    g'.Sealed := by
  obtain ⟨b, live, -, -, rfl⟩ := dropTerminator_ok done
  refine sealed_.modify live fun s stored => sealed_ live s ?_
  exact List.mem_append_right _ (by simpa [Block.stored, Block.setLast] using stored)

theorem splitAt (sealed_ : g.Sealed) {index : Nat} (live : g.block? id = some b) :
    (g.splitAt id b index).Sealed := by
  intro other d found s stored
  rw [contains_splitAt live]
  rcases block?_of_splitAt live found with ⟨rfl, rfl⟩ | ⟨rfl, rfl⟩ | ⟨-, -, found⟩
  · exact .inr (sealed_ live s stored)
  · exact .inl (by simpa [Block.stored, headOf] using stored)
  · exact .inr (sealed_ found s stored)

theorem remove (sealed_ : g.Sealed) {removed : List BlockId} {n : Nat}
    (done : g.remove removed = .ok (n, g')) : g'.Sealed := by
  intro other d found s stored
  obtain ⟨e, was, -, rfl⟩ := block?_of_remove done found
  rw [contains_remove done]
  simp only [Block.stored, pruneEdges, List.mem_append, List.mem_filter, Option.mem_toList,
    Option.filter_eq_some_iff, Bool.not_eq_true', List.contains_eq_mem, decide_eq_false_iff_not]
    at stored
  have before : s ∈ e.stored := by
    rw [Block.stored, List.mem_append, Option.mem_toList]
    exact stored.imp And.left And.left
  exact ⟨sealed_ was s before, stored.elim And.right And.right⟩

end Sealed

theorem Laid.removeDead (l : g.Laid) {n : Nat} (done : g.removeDead = .ok (n, g')) : g'.Laid := by
  rcases removeDead_ok done with ⟨-, -, rfl⟩ | ⟨-, done⟩
  · exact l
  · exact l.remove done

theorem Laid.merge (l : g.Laid) : g.merge.2.Laid :=
  mergeUpTo_keeps (fun l j => l.joined j) g.layout.length l

theorem Laid.apply (l : g.Laid) {e : Edit} (structural : e.Structural) : (e.apply g).Laid := by
  have does := e.does l.listed_of_live
  generalize e.apply g = g' at does ⊢
  cases does with
  | idle => exact l
  | redirect done => exact l.redirect done
  | dropTerminator done => exact l.dropTerminator done
  | split live cut inside => exact l.splitAt live cut inside
  | remove done | removeDead done => exact l.remove done
  | merge => exact l.merge
  | repartition | allocInstr | inline | fold => exact structural.elim

theorem Sealed.apply (sealed_ : g.Sealed) (l : g.Laid) {e : Edit} (structural : e.Structural)
    (unmerged : e ≠ .merge) : (e.apply g).Sealed := by
  have does := e.does l.listed_of_live
  generalize e.apply g = g' at does ⊢
  cases does with
  | idle => exact sealed_
  | redirect done => exact sealed_.redirect done
  | dropTerminator done => exact sealed_.dropTerminator done
  | split live => exact sealed_.splitAt live
  | remove done | removeDead done => exact sealed_.remove done
  | merge => exact absurd rfl unmerged
  | repartition | allocInstr | inline | fold => exact structural.elim

/-- Edges that blocks follow stay live also through a merge, since the block that goes is led to by
    the block it is joined to alone. -/
theorem Tight.apply (tight : g.Tight) (l : g.Laid) {e : Edit} (structural : e.Structural)
    (allowed : e.Allowed g) : (e.apply g).Tight := by
  have does := e.does l.listed_of_live
  generalize e.apply g = g' at does ⊢
  cases does with
  | idle => exact tight
  | redirect done => exact tight.redirect l done
  | dropTerminator done => exact tight.dropTerminator l done allowed
  | split live cut inside => exact tight.splitAt l live cut inside
  | remove done | removeDead done => exact tight.remove l done
  | merge =>
    refine (mergeUpTo_keeps (P := fun g => g.Laid ∧ g.Tight) ?_ g.layout.length ⟨l, tight⟩).2
    exact fun held j => ⟨held.1.joined j, held.2.joined held.1 j⟩
  | repartition | allocInstr | inline | fold => exact structural.elim

theorem Sealed.applyAll (sealed_ : g.Sealed) (l : g.Laid) {edits : List Edit}
    (structural : ∀ e ∈ edits, e.Structural) (unmerged : Edit.merge ∉ edits) :
    (g.applyAll edits).Sealed ∧ (g.applyAll edits).Laid := by
  refine List.foldlRecOn (motive := fun g : Graph => g.Sealed ∧ g.Laid) edits _ ⟨sealed_, l⟩ ?_
  rintro g ⟨sealed_, l⟩ e inside
  have apart : e ≠ .merge := fun same => unmerged (same ▸ inside)
  exact ⟨sealed_.apply l (structural e inside) apart, l.apply (structural e inside)⟩

theorem Tight.applyAll (tight : g.Tight) (l : g.Laid) {edits : List Edit}
    (structural : ∀ e ∈ edits, e.Structural) (allowed : AllowedAll g edits) :
    (g.applyAll edits).Tight ∧ (g.applyAll edits).Laid := by
  refine applyAll_keeps (P := fun g => g.Tight ∧ g.Laid) ⟨tight, l⟩ allowed ?_
  rintro g e inside allowed ⟨tight, l⟩
  exact ⟨tight.apply l (structural e inside) allowed, l.apply (structural e inside)⟩

theorem lastLink_error {e : Error} (failed : lastLink b = .error e) :
    e = .graph (.noTarget b.id) := by
  unfold lastLink at failed
  split at failed
  case h_1 | h_2 | h_3 =>
    split at failed
    · cases failed
    · cases failed
      rfl
  case h_4 | h_5 | h_6 => cases failed

theorem jumpBehind_error {next : Option BlockId} {e : Error}
    (failed : jumpBehind b next = .error e) :
    e = .graph (.openConditional b.id) ∨ e = .graph (.fallsNowhere b.id) := by
  unfold jumpBehind at failed
  split at failed
  case h_1 | h_2 | h_3 | h_7 => cases failed
  case h_4 | h_5 =>
    cases failed
    exact .inl rfl
  case h_6 =>
    split at failed
    · cases failed
      exact .inr rfl
    · cases failed

theorem pieces_ne_outside (fresh : InstrId) (ids : List BlockId) (t : BlockId) :
    g.pieces fresh ids ≠ .error (.graph (.outsideLayout t)) := by
  induction ids generalizing fresh with
  | nil => rintro ⟨⟩
  | cons id rest ih =>
    intro failed
    rw [pieces] at failed
    cases live : g.block? id with
    | none =>
      rw [live] at failed
      cases failed
    | some b =>
      cases linked : lastLink b with
      | error e =>
        simp only [live, linked, lastLink_error linked, bind, Except.bind] at failed
        cases failed
      | ok link =>
        cases behind : jumpBehind b rest.head? with
        | error e =>
          simp only [live, linked, behind, bind, Except.bind] at failed
          rcases jumpBehind_error behind with rfl | rfl <;> cases failed
        | ok jump =>
          have later := ih (fresh.after jump.toList.length)
          cases jump <;>
          · simp only [live, linked, behind, bind, Except.bind] at failed
            split at failed
            · cases failed
              exact later ‹_›
            · cases failed

theorem Tight.toBody_ne_outside (tight : g.Tight) (l : g.Laid) (t : BlockId) :
    g.toBody ≠ .error (.graph (.outsideLayout t)) := by
  intro failed
  cases found : g.pieces g.nextInstr g.layout with
  | ok result =>
    obtain ⟨body, done⟩ := toBody_of_pieces l tight found
    rw [done] at failed
    cases failed
  | error e =>
    simp only [toBody, found, bind, Except.bind] at failed
    cases failed
    exact pieces_ne_outside _ _ t found

end Graph

theorem Body.toGraph_sealed {body : Body} {g : Graph} (done : body.toGraph = .ok g) :
    g.Sealed := by
  obtain ⟨starts, -, -, rfl⟩ := toGraph_ok done
  intro k b live s stored
  obtain ⟨start, -, rfl⟩ := exists_start rfl live
  rw [contains_cut rfl]
  rcases List.mem_append.mp stored with named | falls
  · obtain ⟨t, -, found⟩ := List.mem_filterMap.mp named
    exact blockAt?_lt found
  · exact fall_blockOf (Option.mem_toList.mp falls)

namespace Graph
variable {g : Graph}

/-- Edits with any arguments leave no edge to a block that is gone, and no such edge stands in the
    way of writing the graph out, as long as terminators are dropped from two-way branches and
    switches alone once blocks were merged. -/
theorem edges_stay_live {body : Body} (cut : body.toGraph = .ok g) {early late : List Edit}
    (structural : ∀ e ∈ early ++ late, e.Structural) (unmerged : Edit.merge ∉ early)
    (allowed : AllowedAll (g.applyAll early) late) :
    (∀ id b, (g.applyAll (early ++ late)).block? id = some b → ∀ s ∈ b.successors,
      (g.applyAll (early ++ late)).contains s = true) ∧
    ∀ t, (g.applyAll (early ++ late)).toBody ≠ .error (.graph (.outsideLayout t)) := by
  rw [List.forall_mem_append] at structural
  have whole : g.applyAll (early ++ late) = (g.applyAll early).applyAll late :=
    List.foldl_append
  obtain ⟨sealed_, l⟩ :=
    (Body.toGraph_sealed cut).applyAll (Body.toGraph_laid cut) structural.1 unmerged
  obtain ⟨tight, l⟩ := sealed_.tight.applyAll l structural.2 allowed
  rw [whole]
  exact ⟨fun id b live => tight live, fun t => tight.toBody_ne_outside l t⟩

def detour : Body where
  instrs := [⟨0, .br .long, .target 2, 0⟩, ⟨1, .ret, .none, 5⟩, ⟨2, .br .long, .target 1, 6⟩]
  nextId := 3

theorem detour_edges_stay_live :
    ∃ g, detour.toGraph = .ok g ∧
      (∀ e ∈ [Edit.dropTerminator 0, .removeDead] ++ [.merge], e.Structural) ∧
      Edit.merge ∉ [Edit.dropTerminator 0, .removeDead] ∧
      AllowedAll (g.applyAll [.dropTerminator 0, .removeDead]) [.merge] ∧
      (∀ id b, (g.applyAll [.dropTerminator 0, .removeDead, .merge]).block? id = some b →
        ∀ s ∈ b.successors,
          (g.applyAll [.dropTerminator 0, .removeDead, .merge]).contains s = true) ∧
      ∀ t, (g.applyAll [.dropTerminator 0, .removeDead, .merge]).toBody ≠
        .error (.graph (.outsideLayout t)) := by
  have structural : ∀ e ∈ [Edit.dropTerminator 0, .removeDead] ++ [.merge], e.Structural := by
    simp [Edit.Structural]
  have unmerged : Edit.merge ∉ [Edit.dropTerminator 0, .removeDead] := by simp
  have allowed : ∀ g, AllowedAll g [.merge] := fun g => ⟨trivial, trivial⟩
  refine ⟨_, rfl, structural, unmerged, allowed _, ?_⟩
  exact @edges_stay_live _ detour rfl [.dropTerminator 0, .removeDead] [.merge] structural unmerged
    (allowed _)

/-- The merged block keeps the edge of the return to a block that the merge took away, and without
    the return it falls there. -/
theorem detour_edge_dangles :
    ∃ g, detour.toGraph = .ok g ∧ (∀ e ∈ [Edit.merge, .dropTerminator 0], e.Structural) ∧
      (∃ b, (g.applyAll [.merge, .dropTerminator 0]).block? 0 = some b ∧ 2 ∈ b.successors) ∧
      (g.applyAll [.merge, .dropTerminator 0]).contains 2 = false ∧
      (g.applyAll [.merge, .dropTerminator 0]).toBody = .error (.graph (.outsideLayout 2)) := by
  refine ⟨_, rfl, by simp [Edit.Structural], ⟨_, rfl, ?_⟩, rfl, rfl⟩
  decide

end Graph
end Unravel
