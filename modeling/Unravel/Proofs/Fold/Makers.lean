import Unravel.Proofs.Pass.Folding

namespace Unravel

def Opcode.makes : Opcode → Bool
  | .ldcI4Fixed _ | .ldcI4S | .ldcI4 | .ldcI8 | .ldloc _ | .dup | .unary _ | .binary _ => true
  | _ => false

theorem Instr.makes_of_constant {i : Instr} {c : Constant} (load : i.constant? = some c) :
    i.opcode.makes = true := by
  rw [i.constant?_eq_literal?] at load
  obtain ⟨n, literal, -⟩ := Option.map_eq_some_iff.mp load
  unfold literal? at literal
  split at literal <;> simp_all [Opcode.makes]

theorem Instr.makes_of_loadedLocal {i : Instr} {n : Nat} (access : i.loadedLocal? = some n) :
    i.opcode.makes = true := by
  unfold loadedLocal? at access
  split at access
  · rename_i op
    rw [op]
    rfl
  · cases access

namespace Fold

mutual

def Source.sites : Source → List Nat
  | .site index => [index]
  | .copy index sources => index :: sitesOf sources

def sitesOf : List Source → List Nat
  | [] => []
  | x :: rest => x.sites ++ sitesOf rest

end

theorem sitesOf_append (xs ys : List Source) : sitesOf (xs ++ ys) = sitesOf xs ++ sitesOf ys := by
  induction xs with
  | nil => rfl
  | cons x rest ih => rw [List.cons_append, sitesOf, ih, sitesOf, List.append_assoc]

theorem mem_sitesOf {xs : List Source} {j : Nat} : j ∈ sitesOf xs ↔ ∃ x ∈ xs, j ∈ x.sites := by
  induction xs with
  | nil => simp [sitesOf]
  | cons x rest ih => simp [sitesOf, ih]

mutual

theorem Source.mem_drop : ∀ (x : Source) {e : List Nat} {j : Nat},
    j ∈ x.drop e → j ∈ e ∨ j ∈ x.sites
  | .site index, e, j, inside => by
    rw [Source.drop] at inside
    exact (List.mem_cons.mp inside).symm.imp_right fun same => by simp [Source.sites, same]
  | .copy index sources, e, j, inside => by
    rw [Source.drop] at inside
    rw [Source.sites]
    split at inside
    · exact (mem_dropSources sources inside).imp_right (List.mem_cons_of_mem index)
    · exact (List.mem_cons.mp inside).symm.imp_right fun same => by simp [same]

theorem mem_dropSources : ∀ (xs : List Source) {e : List Nat} {j : Nat},
    j ∈ dropSources xs e → j ∈ e ∨ j ∈ sitesOf xs
  | [], _, _, inside => .inl inside
  | x :: rest, e, j, inside => by
    rw [dropSources] at inside
    rw [sitesOf, List.mem_append]
    rcases mem_dropSources rest inside with early | named
    · exact (Source.mem_drop x early).imp_right .inl
    · exact .inr (.inr named)

end

structure State.Names (P : Nat → Prop) (s : State) : Prop where
  sources : ∀ k, some k ∈ s.stack → ∀ j ∈ sitesOf k.sources, P j
  erased : ∀ j ∈ s.erased, P j
  loads : ∀ l ∈ s.loads, P l.1

namespace State.Names
variable {P : Nat → Prop} {extra : Bool} {t : Nat} {s : State}

theorem push (names : s.Names P) {slot : Option Known}
    (named : ∀ k, slot = some k → ∀ j ∈ sitesOf k.sources, P j) : (s.push slot).Names P where
  sources k inside := by
    rcases List.mem_cons.mp inside with same | inside
    · exact named k same.symm
    · exact names.sources k inside
  erased := names.erased
  loads := names.loads

theorem skip (names : s.Names P) (effect : StackEffect) : (s.skip effect).Names P where
  sources k inside := by
    rcases List.mem_append.mp inside with fresh | old
    · cases (List.mem_replicate.mp fresh).2
    · exact names.sources k (List.mem_of_mem_drop old)
  erased := names.erased
  loads := names.loads

theorem rest (names : s.Names P) {stack : List (Option Known)} (part : stack ⊆ s.stack) :
    State.Names P { s with stack := stack } where
  sources k inside := names.sources k (part inside)
  erased := names.erased
  loads := names.loads

theorem pop (names : s.Names P) : s.pop.2.Names P where
  sources k inside := names.sources k (List.mem_of_mem_tail inside)
  erased := names.erased
  loads := names.loads

theorem load (names : s.Names P) (here : P t) (value : Constant) :
    State.Names P { s with loads := s.loads ++ [(t, value)] } where
  sources := names.sources
  erased := names.erased
  loads l inside := by
    rcases List.mem_append.mp inside with early | last
    · exact names.loads l early
    · rw [List.mem_singleton.mp last]
      exact here

theorem fold (names : s.Names P) (here : P t) (value : Constant) {sources : List Source}
    (named : ∀ j ∈ sitesOf sources, P j) : (s.fold extra t value sources).Names P := by
  unfold State.fold
  split
  · have claimed : State.Names P { s with
        erased := dropSources sources s.erased, loads := s.loads ++ [(t, value)] } := by
      refine ⟨names.sources, fun j inside => ?_, (names.load here value).loads⟩
      exact (mem_dropSources sources inside).elim (names.erased j) (named j)
    refine claimed.push ?_
    rintro k ⟨⟩
    simpa [sitesOf, Source.sites] using here
  · refine names.push ?_
    rintro k ⟨⟩
    simpa [sitesOf, Source.sites, here] using named

theorem loadLocal (names : s.Names P) (here : P t) (n : Nat) :
    (s.loadLocal extra t n).Names P := by
  rcases loadLocal_cases extra t s n with ⟨c, -, same⟩ | ⟨-, same⟩ <;> rw [same]
  · refine State.Names.push ?_ (by rintro k ⟨⟩; simpa [sitesOf, Source.sites] using here)
    split
    · exact names.load here c
    · exact names
  · exact names.skip ⟨0, 1⟩

theorem storeLocal (names : s.Names P) (pinned : List Nat) (n : Nat) :
    (s.storeLocal pinned n).Names P := by
  obtain ⟨stack, erased, loads⟩ := storeLocal_fields pinned s n
  refine ⟨fun k inside => ?_, ?_, ?_⟩
  · rw [stack] at inside
    exact names.sources k (List.mem_of_mem_tail inside)
  · rw [erased]
    exact names.erased
  · rw [loads]
    exact names.loads

theorem duplicate (names : s.Names P) (here : P t) : (s.duplicate t).Names P := by
  rcases duplicate_cases t s with ⟨a, rest, stack, same⟩ | ⟨-, same⟩ <;> rw [same]
  · have named := names.sources a (by simp [stack])
    have under : State.Names P { s with stack := rest } := names.rest (by simp [stack])
    refine (under.push ?_).push ?_ <;>
    · rintro k ⟨⟩
      simpa [sitesOf, Source.sites, here] using named
  · exact names.skip ⟨1, 2⟩

theorem foldUnary (names : s.Names P) (here : P t) (f : UnaryOp) :
    (s.foldUnary extra t f).Names P := by
  rcases foldUnary_cases extra t f s with ⟨a, rest, stack, same⟩ | ⟨-, same⟩ <;> rw [same]
  · exact (names.rest (by simp [stack])).fold here _ (names.sources a (by simp [stack]))
  · exact names.skip ⟨1, 1⟩

theorem foldBinary (names : s.Names P) (here : P t) (f : BinaryOp) :
    (s.foldBinary extra t f).Names P := by
  rcases foldBinary_cases extra t f s with ⟨a, c, v, rest, stack, -, same⟩ | ⟨-, same⟩ <;> rw [same]
  · refine (names.rest (by simp [stack])).fold here _ ?_
    rw [sitesOf_append]
    exact List.forall_mem_append.mpr
      ⟨names.sources a (by simp [stack]), names.sources c (by simp [stack])⟩
  · exact names.skip ⟨2, 1⟩

end State.Names

variable {P : Nat → Prop} {pinned : List Nat} {extra : Bool} {t : Nat} {i : Instr}
  {s s' final : State} {b : Block} {decision : Option (Option BlockId)}

theorem Stepped.names (stepped : Stepped pinned extra t i s s') (names : s.Names P)
    (here : i.opcode.makes = true → P t) : s'.Names P := by
  cases stepped with
  | constant c load =>
    refine names.push ?_
    rintro k ⟨⟩
    simpa [sitesOf, Source.sites] using here (Instr.makes_of_constant load)
  | loaded n value access => exact names.loadLocal (here (Instr.makes_of_loadedLocal access)) n
  | stored n value load access => exact names.storeLocal pinned n
  | nop op => exact names
  | pop op => exact names.pop
  | dup op => exact names.duplicate (here (by rw [op]; rfl))
  | unary f op => exact names.foldUnary (here (by rw [op]; rfl)) f
  | binary f op => exact names.foldBinary (here (by rw [op]; rfl)) f
  | skipped effect known called => exact names.skip effect

theorem names_start (P : Nat → Prop) : State.Names P {} := ⟨by simp, by simp, by simp⟩

theorem decided_named {d : Decision} (names : s.Names P) (decided : decide? b i s = some d) :
    ∀ j ∈ sitesOf d.sources, P j := by
  obtain ⟨ks, rest, way, decided⟩ := decide?_decided Unit decided
  intro j named
  obtain ⟨x, listed, among⟩ := mem_sitesOf.mp named
  obtain ⟨k, known, origin⟩ := List.mem_flatMap.mp (decided.sources.mem_iff.mp listed)
  refine names.sources k ?_ j (mem_sitesOf.mpr ⟨x, origin, among⟩)
  rw [decided.stack]
  exact List.mem_append_left _ (List.mem_map_of_mem known)

theorem simulate_names {whole code : List Instr} (rest : whole.drop t = code)
    (makers : ∀ n i, whole[n]? = some i → i.opcode.makes = true → P n) (names : s.Names P)
    (ran : simulate pinned extra b t code s = (final, decision)) : final.Names P := by
  have simulated := simulate_simulated ran
  clear ran
  induction simulated with
  | ended | undecided | stuck => exact names
  | decided ends found =>
    refine ⟨names.sources, fun j gone => ?_, names.loads⟩
    exact (mem_dropSources _ gone).elim (names.erased j) (decided_named names found j)
  | @step t i code s s' final decision goes stepped later ih =>
    have here : whole[t]? = some i := by
      rw [← List.head?_drop, rest]
      rfl
    refine ih ?_ (stepped.names names (makers t i here))
    rw [← List.tail_drop, rest]
    rfl

theorem foldInstr_of_not_makes (ran : simulate pinned extra b 0 b.instrs {} = (final, decision))
    {n : Nat} (here : b.instrs[n]? = some i) (blind : i.opcode.makes = false) :
    foldInstr final n i = i := by
  have names : final.Names fun n => ∃ i, b.instrs[n]? = some i ∧ i.opcode.makes = true :=
    simulate_names rfl (fun n i here made => ⟨i, here, made⟩) (names_start _) ran
  have unnamed : ¬ ∃ i, b.instrs[n]? = some i ∧ i.opcode.makes = true := by
    rintro ⟨j, there, made⟩
    cases here.symm.trans there
    cases blind.symm.trans made
  refine foldInstr_kept (fun gone => unnamed (names.erased n gone)) ?_
  rw [List.lookup_eq_none_iff]
  intro load listed
  refine bne_iff_ne.mpr ?_
  rintro rfl
  exact unnamed (names.loads load listed)

end Fold
end Unravel
