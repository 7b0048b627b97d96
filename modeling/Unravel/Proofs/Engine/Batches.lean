import Unravel.Crew
import Unravel.Proofs.Engine.Requests

/-!
An engine in use. Calls come in any order: to clean a method, to prune it, or to clean a batch,
whose workers take their steps in any order too. What is known of a worker follows from how far it
is: with each step of any of them the tale of one worker goes on, and the tales of the others stay
true.
-/
namespace Unravel

/-- A list holds the elements of some lists, those of each list in their order. -/
inductive Merged {α : Type} : List (List α) → List α → Prop where
  | nothing {ls : List (List α)} (empty : ∀ l ∈ ls, l = []) : Merged ls []
  | more {ls : List (List α)} {k : Nat} {l all : List α} {x : α} (before : Merged ls all)
      (here : ls[k]? = some l) : Merged (ls.set k (l ++ [x])) (all ++ [x])

/-- Where the elements of one list can be told from those of the others, they are found in their
    order. -/
theorem Merged.filter {α : Type} {ls : List (List α)} {all : List α} (merged : Merged ls all)
    {p : α → Bool} {j : Nat} {l : List α} (here : ls[j]? = some l) (own : ∀ x ∈ l, p x = true)
    (others : ∀ i l', i ≠ j → ls[i]? = some l' → ∀ x ∈ l', p x = false) : all.filter p = l := by
  induction merged generalizing l with
  | nothing empty => rw [empty l (List.mem_of_getElem? here), List.filter_nil]
  | @more ls k l' all x before last ih =>
    have below : k < ls.length := (List.getElem?_eq_some_iff.mp last).1
    rw [List.filter_append]
    by_cases same : j = k
    · subst same
      rw [List.getElem?_set_self below] at here
      cases here
      have kept := ih last (fun y inside => own y (List.mem_append_left _ inside)) fun i l'' apart
        there => others i l'' apart (by rw [List.getElem?_set_ne apart.symm, there])
      rw [kept, List.filter_singleton, own x (by simp)]
      rfl
    · have quiet := others k (l' ++ [x]) (Ne.symm same) (List.getElem?_set_self below)
      rw [List.getElem?_set_ne (Ne.symm same)] at here
      have kept := ih here own fun i l'' apart there y inside => by
        by_cases at_ : i = k
        · subst at_
          cases last.symm.trans there
          exact quiet y (List.mem_append_left _ inside)
        · exact others i l'' apart (by rw [List.getElem?_set_ne (Ne.symm at_), there]) y inside
      rw [kept, List.filter_singleton, quiet x (by simp)]
      simp

def Phase.ran : Phase → Bool
  | .waiting => false
  | .running _ => true
  | .recording outcome _ => outcome != .skipped

def Phase.outcome : Phase → Outcome
  | .recording outcome _ => outcome
  | _ => .skipped

/-- What a turn of the method at a place came to, and what was recorded of it. -/
structure Turned where
  place : Nat
  token : Token
  outcome : Outcome
  events : Journal

def ranIn (turns : List Turned) : List Token :=
  (turns.filter fun t => t.outcome != .skipped).map Turned.token

/-- What some turns make of a world. The methods at other places stay, and what is recorded of the
    turns is all that is added to the journal, each turn in its order. -/
structure World.Comes (w : World) (turns : List Turned) (w' : World) : Prop where
  config : w'.engine.config = w.engine.config
  each : ∀ t ∈ turns, ∃ m m', w.methods[t.place]? = some m ∧ w'.methods[t.place]? = some m' ∧
    m.token = t.token ∧ Engine.Turn w.engine.config w'.engine.registry m t.outcome m' t.events
  others : ∀ n ∉ turns.map Turned.place, w'.methods[n]? = w.methods[n]?
  took : w.engine.registry.Took (ranIn turns) w'.engine.registry
  journal : ∃ added, w'.engine.journal = w.engine.journal ++ added ∧
    Merged (turns.map Turned.events) added ∧
    ∀ t ∈ turns, t.outcome ≠ .skipped → Journal.ofMethod added t.token = t.events

theorem World.set_methods {w : World} {n : Nat} {m : Method} (object : w.methods[n]? = some m) :
    w.methods.set n m = w.methods := by
  obtain ⟨below, held⟩ := List.getElem?_eq_some_iff.mp object
  rw [← held, List.set_getElem_self]

namespace Crew

/-- A worker, the method as it was at first, and what the worker has recorded so far. -/
structure Tale where
  place : Nat
  phase : Phase
  method : Method
  said : Journal

def Tale.worker (t : Tale) : Worker := ⟨t.place, t.phase⟩

def Tale.turned (t : Tale) : Turned := ⟨t.place, t.method.token, t.phase.outcome, t.said⟩

def takenIn (tales : List Tale) : List Token :=
  (tales.filter fun t => t.phase.ran).map fun t => t.method.token

/-- How a worker stands whose method was `m` at first and is `now`. -/
inductive Stands (c : Config) (r : Registry) (m : Method) : Phase → Method → Journal → Prop where
  | waiting : Stands c r m .waiting m []
  | running {body : Body} (stored : m.body = some body) : Stands c r m (.running body) m []
  | recording {outcome : Outcome} {now : Method} {said left : Journal}
      (turn : Engine.Turn c r m outcome now (said ++ left)) :
      Stands c r m (.recording outcome left) now said

theorem Stands.mono {c : Config} {r r' : Registry} {m now : Method} {phase : Phase}
    {said : Journal} (stands : Stands c r m phase now said)
    (grows : ∀ token, r.check token Engine.taken = true → r'.check token Engine.taken = true) :
    Stands c r' m phase now said := by
  cases stands with
  | waiting => exact .waiting
  | running stored => exact .running stored
  | recording turn => exact .recording (turn.mono grows)

structure Follows (w : World) (tales : List Tale) (c : Crew) : Prop where
  config : c.engine.config = w.engine.config
  workers : c.workers = tales.map Tale.worker
  apart : (tales.map Tale.place).Nodup
  each : ∀ t ∈ tales, w.methods[t.place]? = some t.method ∧
    ∃ now, c.methods[t.place]? = some now ∧
      Stands w.engine.config c.engine.registry t.method t.phase now t.said
  others : ∀ n ∉ tales.map Tale.place, c.methods[n]? = w.methods[n]?
  took : w.engine.registry.Took (takenIn tales) c.engine.registry
  journal : ∃ added, c.engine.journal = w.engine.journal ++ added ∧
    Merged (tales.map Tale.said) added

variable {w : World} {c c' : Crew} {tales front back : List Tale} {t t' : Tale}

theorem Follows.at (follows : Follows w tales c) {early late : List Worker} {n : Nat}
    {phase : Phase} (workers : c.workers = early ++ ⟨n, phase⟩ :: late) :
    ∃ front m said back, tales = front ++ ⟨n, phase, m, said⟩ :: back ∧
      early = front.map Tale.worker ∧ late = back.map Tale.worker ∧ w.methods[n]? = some m ∧
      ∃ now, c.methods[n]? = some now ∧
        Stands w.engine.config c.engine.registry m phase now said := by
  obtain ⟨front, rest, rfl, rfl, same⟩ :=
    List.map_eq_append_iff.mp (follows.workers.symm.trans workers)
  obtain ⟨⟨n, phase, m, said⟩, back, rfl, worker, rfl⟩ := List.map_eq_cons_iff.mp same
  cases worker
  exact ⟨front, m, said, back, rfl, rfl, rfl, follows.each _ (by simp)⟩

theorem Follows.tookStill (follows : Follows w (front ++ t :: back) c)
    (same : t'.phase.ran = t.phase.ran) (method : t'.method = t.method) :
    w.engine.registry.Took (takenIn (front ++ t' :: back)) c.engine.registry := by
  have kept : takenIn (front ++ t' :: back) = takenIn (front ++ t :: back) := by
    simp only [takenIn, List.filter_append, List.filter_cons, same]
    split <;> simp [method]
  rw [kept]
  exact follows.took

theorem Follows.journalStill (follows : Follows w (front ++ t :: back) c)
    (said : t'.said = t.said) : ∃ added, c.engine.journal = w.engine.journal ++ added ∧
      Merged ((front ++ t' :: back).map Tale.said) added := by
  have kept : (front ++ t' :: back).map Tale.said = (front ++ t :: back).map Tale.said := by
    simp [said]
  rw [kept]
  exact follows.journal

theorem Follows.goesOn (follows : Follows w (front ++ t :: back) c) (place : t'.place = t.place)
    (method : t'.method = t.method) (config : c'.engine.config = c.engine.config)
    (workers : c'.workers = front.map Tale.worker ++ t'.worker :: back.map Tale.worker)
    (now : ∃ now, c'.methods[t.place]? = some now ∧
      Stands w.engine.config c'.engine.registry t.method t'.phase now t'.said)
    (aside : ∀ n, n ≠ t.place → c'.methods[n]? = c.methods[n]?)
    (grows : ∀ token, c.engine.registry.check token Engine.taken = true →
      c'.engine.registry.check token Engine.taken = true)
    (took : w.engine.registry.Took (takenIn (front ++ t' :: back)) c'.engine.registry)
    (journal : ∃ added, c'.engine.journal = w.engine.journal ++ added ∧
      Merged ((front ++ t' :: back).map Tale.said) added) :
    Follows w (front ++ t' :: back) c' := by
  have places : (front ++ t' :: back).map Tale.place = (front ++ t :: back).map Tale.place := by
    simp [place]
  refine ⟨config.trans follows.config, by simp [workers], places ▸ follows.apart, ?_, ?_, took,
    journal⟩
  · -- No other worker has this place, so the methods of the others are left alone.
    have away : ∀ u ∈ front ++ back, u.place ≠ t.place := by
      intro u inside same
      have apart := follows.apart
      rw [List.map_append, List.map_cons, List.nodup_middle, List.nodup_cons] at apart
      refine apart.1 ?_
      rw [← List.map_append, ← same]
      exact List.mem_map_of_mem inside
    intro u inside
    rcases List.mem_append.mp inside with early | rest
    · obtain ⟨first, held, stored, stands⟩ := follows.each u (List.mem_append_left _ early)
      refine ⟨first, held, ?_, stands.mono grows⟩
      rw [aside _ (away u (List.mem_append_left _ early)), stored]
    · rcases List.mem_cons.mp rest with rfl | late
      · obtain ⟨first, -⟩ := follows.each t (by simp)
        rw [place, method]
        exact ⟨first, now⟩
      · have old : u ∈ front ++ t :: back := by simp [late]
        obtain ⟨first, held, stored, stands⟩ := follows.each u old
        refine ⟨first, held, ?_, stands.mono grows⟩
        rw [aside _ (away u (List.mem_append_right _ late)), stored]
  · intro n outside
    rw [places] at outside
    rw [← follows.others n outside]
    refine aside n ?_
    rintro rfl
    simp at outside

theorem Follows.started (follows : Follows w tales c) {early late : List Worker} {n : Nat}
    {m : Method} {body : Body} {marked : Engine}
    (at_ : c.workers = early ++ ⟨n, .waiting⟩ :: late) (object : c.methods[n]? = some m)
    (passes : c.engine.gate? m = some (body, marked)) :
    ∃ tales', Follows w tales' { c.phased early n (.running body) late with engine := marked } ∧
      tales'.map Tale.place = tales.map Tale.place := by
  obtain ⟨front, m, said, back, rfl, rfl, rfl, first, now, held, stands⟩ := follows.at at_
  cases stands
  cases object.symm.trans held
  obtain ⟨has, free, rfl⟩ := Engine.gate?_some passes
  refine ⟨front ++ ⟨n, .running body, m, []⟩ :: back, ?_, by simp⟩
  refine follows.goesOn rfl rfl rfl rfl ⟨m, held, .running (Engine.code?_some has).1⟩
    (fun _ _ => rfl) ?_ ?_ (follows.journalStill rfl)
  · intro token old
    exact (Registry.check_mark _ _ token _).mpr (.inl old)
  · refine (follows.took.add free).perm ?_
    simp only [takenIn, List.filter_append, List.filter_cons, Phase.ran, if_true,
      Bool.false_eq_true, if_false, List.map_append, List.map_cons]
    exact List.perm_middle.symm

theorem Follows.settled (follows : Follows w tales c) {early late : List Worker} {n : Nat}
    {m m' : Method} {body : Body} {outcome : Outcome} {events : Journal} {seen : Resolver}
    (at_ : c.workers = early ++ ⟨n, .running body⟩ :: late) (object : c.methods[n]? = some m)
    (settled : Engine.settle m (Engine.transform c.engine.config seen m body) =
      (outcome, m', events)) :
    ∃ tales', Follows w tales' { c.phased early n (.recording outcome events) late with
        methods := c.methods.set n m' } ∧ tales'.map Tale.place = tales.map Tale.place := by
  obtain ⟨front, m, said, back, rfl, rfl, rfl, first, now, held, stands⟩ := follows.at at_
  cases stands with
  | running stored =>
    cases object.symm.trans held
    rw [follows.config] at settled
    obtain ⟨turn, ran⟩ := Engine.Turn.of_settle stored c.engine.registry settled
    have below := (List.getElem?_eq_some_iff.mp held).1
    have still : (Phase.recording outcome events).ran = (Phase.running body).ran := by
      simpa [Phase.ran] using ran
    refine ⟨front ++ ⟨n, .recording outcome events, m, []⟩ :: back, ?_, by simp⟩
    exact follows.goesOn rfl rfl rfl rfl
      ⟨m', List.getElem?_set_self below, .recording turn⟩
      (fun n away => List.getElem?_set_ne away.symm) (fun _ marked => marked)
      (follows.tookStill still rfl) (follows.journalStill rfl)

theorem Follows.recorded (follows : Follows w tales c) {early late : List Worker} {n : Nat}
    {outcome : Outcome} {event : Event} {left : Journal}
    (at_ : c.workers = early ++ ⟨n, .recording outcome (event :: left)⟩ :: late) :
    ∃ tales', Follows w tales' { c.phased early n (.recording outcome left) late with
        engine := c.engine.record [event] } ∧ tales'.map Tale.place = tales.map Tale.place := by
  obtain ⟨front, m, said, back, rfl, rfl, rfl, first, now, held, stands⟩ := follows.at at_
  cases stands with
  | recording turn =>
    obtain ⟨added, journal, merged⟩ := follows.journal
    refine ⟨front ++ ⟨n, .recording outcome left, m, said ++ [event]⟩ :: back, ?_, by simp⟩
    refine follows.goesOn rfl rfl rfl rfl ⟨now, held, .recording ?_⟩ (fun _ _ => rfl)
      (fun _ marked => marked) (follows.tookStill rfl rfl) ⟨added ++ [event], ?_, ?_⟩
    · rwa [List.append_assoc, List.singleton_append]
    · change c.engine.journal ++ [event] = _
      rw [journal, List.append_assoc]
    · have here : ((front ++ ⟨n, .recording outcome (event :: left), m, said⟩ :: back).map
          Tale.said)[front.length]? = some said := by simp
      simpa using merged.more (x := event) here

/-- Whichever worker takes the next step, there are tales that the crew follows then. -/
theorem Follows.step (follows : Follows w tales c)
    (readable : ∀ m ∈ w.methods, m.broken = false) (step : c.Step c') :
    ∃ tales', Follows w tales' c' ∧ tales'.map Tale.place = tales.map Tale.place := by
  cases step with
  | @refuse _ _ n m at_ object broken =>
    obtain ⟨front, m, said, back, rfl, -, -, first, now, held, stands⟩ := follows.at at_
    cases stands
    cases object.symm.trans held
    rw [readable _ (List.mem_of_getElem? first)] at broken
    cases broken
  | @skip _ _ n m at_ object whole idle =>
    obtain ⟨front, m, said, back, rfl, rfl, rfl, first, now, held, stands⟩ := follows.at at_
    cases stands
    cases object.symm.trans held
    refine ⟨front ++ ⟨n, .recording .skipped [], m, []⟩ :: back, ?_, by simp⟩
    exact follows.goesOn rfl rfl rfl rfl
      ⟨m, held, .recording (.skipped (Engine.gate?_none idle))⟩ (fun _ _ => rfl)
      (fun _ marked => marked) (follows.tookStill rfl rfl) (follows.journalStill rfl)
  | start at_ object whole passes => exact follows.started at_ object passes
  | settle at_ object seen settled => exact follows.settled at_ object settled
  | record at_ => exact follows.recorded at_

def Tale.start (w : World) (n : Nat) : Tale :=
  ⟨n, .waiting, (w.methods[n]?).getD default, []⟩

theorem follows_start {places : List Nat} (apart : places.Nodup)
    (listed : ∀ n ∈ places, n < w.methods.length) :
    ∃ tales, Follows w tales (w.crew places) ∧ tales.map Tale.place = places := by
  have back : (places.map (Tale.start w)).map Tale.place = places := by
    rw [List.map_map]
    exact List.map_id places
  refine ⟨places.map (Tale.start w),
    ⟨rfl, ?_, back.symm ▸ apart, ?_, fun _ _ => rfl, ?_, [], ?_, ?_⟩, back⟩
  · rw [List.map_map]
    rfl
  · intro t inside
    obtain ⟨n, among, rfl⟩ := List.mem_map.mp inside
    have held : w.methods[n]? = some ((w.methods[n]?).getD default) := by
      rw [List.getElem?_eq_getElem (listed n among)]
      rfl
    exact ⟨held, _, held, .waiting⟩
  · have idle : takenIn (places.map (Tale.start w)) = [] := by
      simp [takenIn, Tale.start, Phase.ran]
    rw [idle]
    exact .none _
  · rw [List.append_nil]
    rfl
  · refine .nothing fun l inside => ?_
    obtain ⟨t, among, rfl⟩ := List.mem_map.mp inside
    obtain ⟨n, -, rfl⟩ := List.mem_map.mp among
    rfl

theorem Follows.runs (follows : Follows w tales c) (readable : ∀ m ∈ w.methods, m.broken = false)
    (ran : c.Runs c') :
    ∃ tales', Follows w tales' c' ∧ tales'.map Tale.place = tales.map Tale.place := by
  induction ran with
  | refl => exact ⟨tales, follows, rfl⟩
  | tail _ step ih =>
    obtain ⟨tales', follows', places⟩ := ih
    obtain ⟨tales'', follows'', same⟩ := follows'.step readable step
    exact ⟨tales'', follows'', same.trans places⟩

theorem token_ne_of_ran {turns : List Turned} (once : (ranIn turns).Nodup) {i j : Nat}
    {t u : Turned} (apart : i ≠ j) (here : turns[i]? = some t) (there : turns[j]? = some u)
    (ran : t.outcome ≠ .skipped) (ran' : u.outcome ≠ .skipped) : t.token ≠ u.token := by
  have pairs := List.pairwise_filter.mp (List.pairwise_map.mp once)
  rw [List.pairwise_iff_getElem] at pairs
  obtain ⟨below, rfl⟩ := List.getElem?_eq_some_iff.mp here
  obtain ⟨below', rfl⟩ := List.getElem?_eq_some_iff.mp there
  rcases Nat.lt_or_gt_of_ne apart with lt | lt
  · exact pairs i j below below' lt (by simpa using ran) (by simpa using ran')
  · exact (pairs j i below' below lt (by simpa using ran') (by simpa using ran)).symm

theorem ofMethod_merged {turns : List Turned} {added : Journal}
    (merged : Merged (turns.map Turned.events) added) (once : (ranIn turns).Nodup)
    (own : ∀ t ∈ turns, ∀ event ∈ t.events, event.method = some t.token)
    (silent : ∀ t ∈ turns, t.outcome = .skipped → t.events = []) {t : Turned} (inside : t ∈ turns)
    (ran : t.outcome ≠ .skipped) : Journal.ofMethod added t.token = t.events := by
  obtain ⟨j, here⟩ := List.getElem?_of_mem inside
  refine merged.filter (j := j) (by simp [here]) ?_ ?_
  · intro event among
    simp [own t inside event among]
  · intro i events apart there event among
    rw [List.getElem?_map] at there
    obtain ⟨u, found, rfl⟩ := Option.map_eq_some_iff.mp there
    have listed := List.mem_of_getElem? found
    have ran' : u.outcome ≠ .skipped := by
      intro skipped
      rw [silent u listed skipped] at among
      cases among
    have differ := token_ne_of_ran once apart found here ran' ran
    simpa [own u listed event among] using differ

theorem Follows.phases (follows : Follows w tales c) {outcomes : List Outcome}
    (through : c.Through outcomes) :
    tales.map Tale.phase = outcomes.map fun outcome => .recording outcome [] := by
  rw [Through, follows.workers, List.map_map] at through
  exact through

def Tale.Ended (t : Tale) : Prop := t.phase = .recording t.phase.outcome []

theorem ended_of_phases {outcomes : List Outcome}
    (phases : tales.map Tale.phase = outcomes.map fun outcome => .recording outcome []) :
    ∀ t ∈ tales, t.Ended := by
  intro t inside
  have listed : t.phase ∈ tales.map Tale.phase := List.mem_map_of_mem inside
  rw [phases] at listed
  obtain ⟨outcome, -, same⟩ := List.mem_map.mp listed
  rw [Tale.Ended, ← same]
  rfl

theorem ranIn_turned (ended : ∀ t ∈ tales, t.Ended) :
    ranIn (tales.map Tale.turned) = takenIn tales := by
  rw [ranIn, takenIn, List.filter_map, List.map_map]
  congr 1
  refine List.filter_congr fun t inside => ?_
  have ran : t.phase.ran = (t.phase.outcome != .skipped) := by
    rw [ended t inside]
    rfl
  rw [ran]
  rfl

/-- A tale that has come to its end is that of a turn. -/
theorem Follows.turn (follows : Follows w tales c) (inside : t ∈ tales) (ended : t.Ended) :
    w.methods[t.place]? = some t.method ∧ ∃ now, c.methods[t.place]? = some now ∧
      Engine.Turn w.engine.config c.engine.registry t.method t.phase.outcome now t.said := by
  obtain ⟨first, now, held, stands⟩ := follows.each t inside
  rw [ended] at stands
  cases stands with
  | recording turn =>
    rw [List.append_nil] at turn
    exact ⟨first, now, held, turn⟩

theorem Follows.comes (follows : Follows w tales c) (ended : ∀ t ∈ tales, t.Ended) :
    w.Comes (tales.map Tale.turned) c.toWorld := by
  have took : w.engine.registry.Took (ranIn (tales.map Tale.turned)) c.engine.registry := by
    rw [ranIn_turned ended]
    exact follows.took
  refine ⟨follows.config, ?_, ?_, took, ?_⟩
  · intro turned inside
    obtain ⟨t, among, rfl⟩ := List.mem_map.mp inside
    obtain ⟨first, now, held, turn⟩ := follows.turn among (ended t among)
    exact ⟨t.method, now, first, held, rfl, turn⟩
  · rw [List.map_map]
    exact follows.others
  · obtain ⟨added, journal, merged⟩ := follows.journal
    have same : (tales.map Tale.turned).map Turned.events = tales.map Tale.said := by
      rw [List.map_map]
      rfl
    rw [← same] at merged
    refine ⟨added, journal, merged, fun turned inside ran => ?_⟩
    refine ofMethod_merged merged took.once ?_ ?_ inside ran
    · intro turned inside
      obtain ⟨t, among, rfl⟩ := List.mem_map.mp inside
      obtain ⟨-, now, -, turn⟩ := follows.turn among (ended t among)
      exact turn.own
    · intro turned inside skipped
      obtain ⟨t, among, rfl⟩ := List.mem_map.mp inside
      obtain ⟨-, now, -, turn⟩ := follows.turn among (ended t among)
      change t.phase.outcome = .skipped at skipped
      rw [skipped] at turn
      exact turn.silent

variable {early late : List Worker} {n : Nat}

theorem run_record {outcome : Outcome} {left : Journal}
    (at_ : c.workers = early ++ ⟨n, .recording outcome left⟩ :: late) :
    c.Runs { c.phased early n (.recording outcome []) late with
      engine := c.engine.record left } := by
  induction left generalizing c with
  | nil =>
    have same : { c.phased early n (.recording outcome []) late with
        engine := c.engine.record [] } = c := by
      simp only [phased, Engine.record, List.append_nil, ← at_]
    rw [same]
    exact .refl
  | cons event left ih =>
    refine .head (.record at_) ?_
    have rest := ih (c := { c.phased early n (.recording outcome left) late with
      engine := c.engine.record [event] }) rfl
    have journal : (c.engine.record [event]).record left = c.engine.record (event :: left) := by
      simp only [Engine.record, List.append_assoc, List.singleton_append]
    rw [← journal]
    exact rest

theorem run_cleaned {m m' : Method} {seen : Resolver} {outcome : Outcome} {e : Engine}
    (at_ : c.workers = early ++ ⟨n, .waiting⟩ :: late) (object : c.methods[n]? = some m)
    (done : c.engine.cleaned seen m = .ok (outcome, e, m')) :
    c.Runs { c.phased early n (.recording outcome []) late with
      engine := e, methods := c.methods.set n m' } := by
  unfold Engine.cleaned at done
  split at done
  · cases done
  · rename_i readable
    rw [Bool.not_eq_true] at readable
    split at done
    · rename_i idle
      cases done
      rw [World.set_methods object]
      exact .single (.skip at_ object readable idle)
    · rename_i body marked passes
      obtain ⟨-, -, mark⟩ := Engine.gate?_some passes
      have config : marked.config = c.engine.config := by rw [mark]
      generalize settled : Engine.settle m _ = came at done
      obtain ⟨outcome, m', events⟩ := came
      cases done
      refine .head (.start at_ object readable passes) (.head (.settle rfl object seen settled) ?_)
      exact run_record rfl

theorem exists_end {phase : Phase} (at_ : c.workers = early ++ ⟨n, phase⟩ :: late)
    (listed : n < c.methods.length) :
    ∃ c' outcome, c.Runs c' ∧ c'.workers = early ++ ⟨n, .recording outcome []⟩ :: late ∧
      c'.methods.length = c.methods.length := by
  obtain ⟨m, object⟩ : ∃ m, c.methods[n]? = some m := ⟨_, List.getElem?_eq_getElem listed⟩
  cases phase with
  | waiting =>
    cases done : c.engine.cleaned default m with
    | ok result =>
      obtain ⟨outcome, e, m'⟩ := result
      exact ⟨_, outcome, run_cleaned at_ object done, rfl, List.length_set⟩
    | error cause =>
      exact ⟨_, .aborted, .single (.refuse at_ object (Engine.broken_of_cleaned done)), rfl, rfl⟩
  | running body =>
    generalize settled : Engine.settle m
      (Engine.transform c.engine.config default m body) = came
    obtain ⟨outcome, m', events⟩ := came
    exact ⟨_, outcome, .head (.settle at_ object default settled) (run_record rfl), rfl,
      List.length_set⟩
  | recording outcome left => exact ⟨_, outcome, run_record at_, rfl, rfl⟩

theorem exists_through (listed : ∀ worker ∈ c.workers, worker.place < c.methods.length) :
    ∃ c' outcomes, c.Runs c' ∧ c'.Through outcomes := by
  -- The workers are brought to their ends one after another, those in `early` are there.
  have all : ∀ (late early : List Worker) (c : Crew), c.workers = early ++ late →
      (∃ outcomes : List Outcome,
        early.map Worker.phase = outcomes.map fun outcome => .recording outcome []) →
      (∀ worker ∈ late, worker.place < c.methods.length) →
      ∃ c' outcomes, c.Runs c' ∧ c'.Through outcomes := by
    intro late
    induction late with
    | nil =>
      rintro early c workers ⟨outcomes, ended⟩ -
      rw [List.append_nil] at workers
      exact ⟨c, outcomes, .refl, by rw [Through, workers, ended]⟩
    | cons worker late ih =>
      rintro early c workers ⟨outcomes, ended⟩ listed
      obtain ⟨c₁, outcome, ran, now, length⟩ :=
        exists_end workers (listed worker List.mem_cons_self)
      rw [List.append_cons] at now
      obtain ⟨c₂, outcomes', later, through⟩ := ih _ c₁ now
        ⟨outcomes ++ [outcome], by simp [ended]⟩ fun other inside => by
          rw [length]
          exact listed other (List.mem_cons_of_mem worker inside)
      exact ⟨c₂, outcomes', ran.trans later, through⟩
  exact all c.workers [] c rfl ⟨[], rfl⟩ listed

theorem run_cleanEach (e : Engine) (front rest : List Method) (early : List Worker) :
    ∃ workers, Runs
        ⟨⟨e, front ++ rest⟩,
          early ++ (List.range' front.length rest.length).map fun n => ⟨n, .waiting⟩⟩
        ⟨⟨(e.cleanEach front rest).2.1, (e.cleanEach front rest).2.2⟩, early ++ workers⟩ ∧
      workers.map Worker.phase =
        (e.cleanEach front rest).1.map fun outcome => .recording outcome [] := by
  induction rest generalizing e front early with
  | nil =>
    refine ⟨[], ?_, rfl⟩
    rw [List.append_nil]
    exact .refl
  | cons m rest ih =>
    have object : (front ++ m :: rest)[front.length]? = some m := by simp
    rw [List.length_cons, List.range'_succ, List.map_cons]
    cases done : e.cleaned (MethodTable.mk (front ++ m :: rest)) m with
    | error cause =>
      obtain ⟨workers, ran, ended⟩ := ih e (front ++ [m])
        (early ++ [⟨front.length, .recording .aborted []⟩])
      simp only [List.append_assoc, List.singleton_append, List.length_append, List.length_cons,
        List.length_nil] at ran
      simp only [Engine.cleanEach, done]
      refine ⟨⟨front.length, .recording .aborted []⟩ :: workers, ?_, ?_⟩
      · exact .head (.refuse rfl object (Engine.broken_of_cleaned done)) ran
      · rw [List.map_cons, ended, List.map_cons]
    | ok result =>
      obtain ⟨outcome, e', m'⟩ := result
      obtain ⟨workers, ran, ended⟩ := ih e' (front ++ [m'])
        (early ++ [⟨front.length, .recording outcome []⟩])
      simp only [List.append_assoc, List.singleton_append, List.length_append, List.length_cons,
        List.length_nil] at ran
      simp only [Engine.cleanEach, done]
      refine ⟨⟨front.length, .recording outcome []⟩ :: workers, ?_, ?_⟩
      · have methods : (front ++ m :: rest).set front.length m' = front ++ m' :: rest := by simp
        refine Relation.ReflTransGen.trans (run_cleaned rfl object done) ?_
        dsimp only [phased]
        rw [methods]
        exact ran
      · rw [List.map_cons, ended, List.map_cons]

end Crew

/-- The methods of a call are among some number of methods, none of them twice. -/
def Call.Among (count : Nat) : Call → Prop
  | .clean n _ | .prune n => n < count
  | .cleanAll places => places.Nodup ∧ ∀ n ∈ places, n < count

namespace World
variable {w w' : World} {call : Call} {reply : Reply} {turns : List Turned}

theorem serves_cleanAll (e : Engine) (methods : MethodTable) :
    (⟨e, methods.methods⟩ : World).Serves (.cleanAll (List.range methods.methods.length))
      (.cleanedAll (e.cleanAll methods).1)
      ⟨(e.cleanAll methods).2.1, (e.cleanAll methods).2.2.methods⟩ := by
  obtain ⟨workers, ran, ended⟩ := Crew.run_cleanEach e [] methods.methods []
  rw [List.nil_append, List.nil_append, List.nil_append, List.length_nil,
    ← List.range_eq_range'] at ran
  exact .cleanedAll ran ended

/-- What is known of a call once it is served. -/
inductive Served (w : World) : Call → Reply → List Turned → World → Prop where
  | cleaned {seen : Resolver} {t : Turned} {w' : World} (comes : w.Comes [t] w')
      (idle : t.outcome = .skipped → w' = w) :
      Served w (.clean t.place seen) (.cleaned t.outcome) [t] w'
  | pruned {n : Nat} {m : Method} {written : Body} {events : Journal}
      (object : w.methods[n]? = some m)
      (own : ∀ event ∈ events, event.method = some m.token ∧ event.kind = .blockRemoved) :
      Served w (.prune n) .pruned []
        ⟨w.engine.record events, w.methods.set n { m with body := some written }⟩
  | idle {n : Nat} : Served w (.prune n) .pruned [] w
  | refused {n : Nat} {cause : Error} : Served w (.prune n) (.failed cause) [] w
  | cleanedAll {turns : List Turned} {w' : World} {batch : Batch} (comes : w.Comes turns w')
      (counts : batch = Engine.batch (turns.map Turned.outcome) w'.engine)
      (total : batch.processed + batch.skipped + batch.failed = turns.length) :
      Served w (.cleanAll (turns.map Turned.place)) (.cleanedAll batch) turns w'

/-- What is known of calls once they are served, with all the turns that they gave. -/
inductive ServedAll : World → List Call → List Reply → List Turned → World → Prop where
  | done {w : World} : ServedAll w [] [] [] w
  | next {w w' w'' : World} {call : Call} {calls : List Call} {reply : Reply}
      {replies : List Reply} {turns later : List Turned} (now : w.Served call reply turns w')
      (rest : ServedAll w' calls replies later w'') :
      ServedAll w (call :: calls) (reply :: replies) (turns ++ later) w''

def Readable (w : World) : Prop := ∀ m ∈ w.methods, m.broken = false

theorem crew_comes {places : List Nat} {c : Crew} {outcomes : List Outcome} (readable : w.Readable)
    (among : (Call.cleanAll places).Among w.methods.length) (ran : (w.crew places).Runs c)
    (through : c.Through outcomes) :
    ∃ turns, w.Comes turns c.toWorld ∧ turns.map Turned.place = places ∧
      turns.map Turned.outcome = outcomes := by
  obtain ⟨first, starts, places_⟩ := Crew.follows_start among.1 among.2
  obtain ⟨tales, follows, same⟩ := starts.runs readable ran
  have phases := follows.phases through
  refine ⟨tales.map Crew.Tale.turned, follows.comes (Crew.ended_of_phases phases), ?_, ?_⟩
  · rw [List.map_map]
    exact same.trans places_
  · have read := congrArg (List.map Phase.outcome) phases
    rw [List.map_map, List.map_map] at read
    rw [List.map_map]
    exact read.trans (List.map_id outcomes)

theorem Serves.served (serves : w.Serves call reply w') (readable : w.Readable)
    (among : call.Among w.methods.length) : ∃ turns, w.Served call reply turns w' := by
  cases serves with
  | @cleaned n seen m m' outcome e object done =>
    have waits : (w.crew [n]).workers = [] ++ ⟨n, .waiting⟩ :: [] := rfl
    have ran := Crew.run_cleaned waits object done
    have alone : (Call.cleanAll [n]).Among w.methods.length :=
      ⟨List.nodup_singleton n, List.forall_mem_singleton.mpr among⟩
    obtain ⟨turns, comes, places, outcomes⟩ :=
      crew_comes readable alone ran (show Crew.Through _ [outcome] from rfl)
    obtain ⟨t, rfl, rfl⟩ := List.map_eq_singleton_iff.mp places
    cases outcomes
    refine ⟨[t], .cleaned comes fun idle => ?_⟩
    rw [idle] at done
    obtain ⟨rfl, rfl⟩ := Engine.cleaned_skipped done
    rw [set_methods object]
  | @uncleaned n seen m cause object failed =>
    have whole := readable m (List.mem_of_getElem? object)
    rw [Engine.broken_of_cleaned failed] at whole
    cases whole
  | @pruned n m m' e object done =>
    obtain ⟨-, ⟨-, rfl, rfl⟩ | ⟨body, g, k, live, again, written, -, -, -, -, -, rfl, rfl⟩⟩ :=
      Engine.pruned_ok done
    · rw [set_methods object]
      exact ⟨[], .idle⟩
    · refine ⟨[], .pruned object fun event inside => ?_⟩
      rw [List.eq_of_mem_replicate inside]
      exact ⟨rfl, rfl⟩
  | @unpruned n m cause object failed => exact ⟨[], .refused⟩
  | @cleanedAll places c outcomes ran through =>
    obtain ⟨turns, comes, rfl, rfl⟩ := crew_comes readable among ran through
    refine ⟨turns, .cleanedAll comes rfl ?_⟩
    rw [← List.length_map (f := Turned.outcome)]
    exact Engine.count_outcomes _

theorem Served.took (served : w.Served call reply turns w') :
    w.engine.registry.Took (ranIn turns) w'.engine.registry := by
  cases served with
  | cleaned comes _ => exact comes.took
  | pruned => exact .none _
  | idle => exact .none _
  | refused => exact .none _
  | cleanedAll comes => exact comes.took

theorem Served.broken (served : w.Served call reply turns w') :
    w'.methods.map Method.broken = w.methods.map Method.broken := by
  refine List.ext_getElem? fun n => ?_
  rw [List.getElem?_map, List.getElem?_map]
  have comes : ∀ turns, w.Comes turns w' →
      (w'.methods[n]?).map Method.broken = (w.methods[n]?).map Method.broken := by
    intro turns comes
    by_cases inside : n ∈ turns.map Turned.place
    · obtain ⟨t, among, rfl⟩ := List.mem_map.mp inside
      obtain ⟨m, m', held, now, -, turn⟩ := comes.each t among
      rw [held, now, Option.map_some, Option.map_some, turn.broken]
    · rw [comes.others n inside]
  cases served with
  | cleaned came _ => exact comes _ came
  | cleanedAll came => exact comes _ came
  | idle => rfl
  | refused => rfl
  | @pruned k m written events object own =>
    have below := (List.getElem?_eq_some_iff.mp object).1
    by_cases same : k = n
    · subst same
      rw [List.getElem?_set_self below, object]
      rfl
    · rw [List.getElem?_set_ne same]

theorem exists_serves (among : call.Among w.methods.length) :
    ∃ reply w', w.Serves call reply w' := by
  cases call with
  | clean n seen =>
    have object := List.getElem?_eq_getElem among
    cases done : w.engine.cleaned seen w.methods[n] with
    | ok result => exact ⟨_, _, .cleaned object done⟩
    | error cause => exact ⟨_, _, .uncleaned object done⟩
  | prune n =>
    have object := List.getElem?_eq_getElem among
    cases done : w.engine.pruned w.methods[n] with
    | ok result => exact ⟨_, _, .pruned object done⟩
    | error cause => exact ⟨_, _, .unpruned object done⟩
  | cleanAll places =>
    obtain ⟨c, outcomes, ran, through⟩ := Crew.exists_through (c := w.crew places) <| by
      intro worker inside
      obtain ⟨n, listed, rfl⟩ := List.mem_map.mp inside
      exact among.2 n listed
    exact ⟨_, _, .cleanedAll ran through⟩

theorem ranIn_append (turns later : List Turned) :
    ranIn (turns ++ later) = ranIn turns ++ ranIn later := by
  rw [ranIn, List.filter_append, List.map_append]
  rfl

theorem Served.readable (served : w.Served call reply turns w') (readable : w.Readable) :
    w'.Readable := by
  intro m inside
  have listed : m.broken ∈ w'.methods.map Method.broken := List.mem_map_of_mem inside
  rw [served.broken] at listed
  obtain ⟨m', among, same⟩ := List.mem_map.mp listed
  rw [← same]
  exact readable m' among

theorem Served.length_methods (served : w.Served call reply turns w') :
    w'.methods.length = w.methods.length := by
  simpa only [List.length_map] using congrArg List.length served.broken

/-- Whatever an engine is asked to do and however its batches go, calls are served; a method runs at
    most once, and it runs to the end or not at all. -/
theorem serves_once (w : World) (calls : List Call) (readable : w.Readable)
    (among : ∀ call ∈ calls, call.Among w.methods.length) :
    (∃ replies w', w.ServesAll calls replies w') ∧
      ∀ replies w', w.ServesAll calls replies w' →
        ∃ turns, w.ServedAll calls replies turns w' ∧
          w.engine.registry.Took (ranIn turns) w'.engine.registry := by
  induction calls generalizing w with
  | nil =>
    refine ⟨⟨[], w, .done⟩, ?_⟩
    rintro replies w' ⟨⟩
    exact ⟨[], .done, .none _⟩
  | cons call calls ih =>
    have first := among call List.mem_cons_self
    have rest : ∀ {reply turns w'}, w.Served call reply turns w' →
        ∀ call ∈ calls, call.Among w'.methods.length := by
      intro reply turns w' served other inside
      rw [served.length_methods]
      exact among other (List.mem_cons_of_mem call inside)
    constructor
    · obtain ⟨reply, w', now⟩ := exists_serves first
      obtain ⟨turns, served⟩ := now.served readable first
      obtain ⟨⟨replies, w'', later⟩, -⟩ := ih w' (served.readable readable) (rest served)
      exact ⟨_, w'', .next now later⟩
    · intro replies w'' all
      cases all with
      | next now later =>
        obtain ⟨turns, served⟩ := now.served readable first
        obtain ⟨-, told⟩ := ih _ (served.readable readable) (rest served)
        obtain ⟨more, servedAll, took⟩ := told _ _ later
        refine ⟨turns ++ more, .next served servedAll, ?_⟩
        rw [ranIn_append]
        exact served.took.trans took

def idler (row : UInt32) : Method where
  token := .methodDef row
  body := some (.ofCode [⟨0, .nop, .none, 0⟩, ⟨1, .ret, .none, 1⟩] [])

/-- Two methods. The second one is asked for by itself, then both with a crew, then the first one is
    pruned and asked for again. -/
def idlers : World := ⟨{}, [idler 1, idler 2]⟩

def idlerCalls : List Call := [.clean 1 default, .cleanAll [1, 0], .prune 0, .clean 0 default]

theorem idlers_serves_once :
    idlers.Readable ∧ (∀ call ∈ idlerCalls, call.Among idlers.methods.length) ∧
      ∃ replies w', idlers.ServesAll idlerCalls replies w' ∧
        ∃ turns, idlers.ServedAll idlerCalls replies turns w' ∧
          idlers.engine.registry.Took (ranIn turns) w'.engine.registry := by
  have readable : idlers.Readable := by
    simp [Readable, idlers, idler]
  have among : ∀ call ∈ idlerCalls, call.Among idlers.methods.length := by
    simp [idlerCalls, idlers, Call.Among]
  obtain ⟨⟨replies, w', serves⟩, told⟩ := serves_once idlers idlerCalls readable among
  exact ⟨readable, among, replies, w', serves, told replies w' serves⟩

end World
end Unravel
