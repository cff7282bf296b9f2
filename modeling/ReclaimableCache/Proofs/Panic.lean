import ReclaimableCache.Proofs.Bulk

/-!
# Panics in code of the caller

A source of values or a computation that panics ends the operation that asked it. What was done by
then stays done and nothing else is: the caller could have done the same one thing after the other,
and whatever is done later cannot tell the difference.
-/

namespace ReclaimableCache

variable {K V α : Type}

/-- What code of the caller asks for on a host, as acts of the caller himself. -/
def Routine.asked [DecidableEq K] (limit : Nat) : Routine K V α → Host K V → List (Act K V)
  | done _, _ => []
  | ask c request next, h =>
      let served := (Host.serve limit c request).run h
      .on c (.request request) :: (next served.2).asked limit served.1

section

variable [DecidableEq K]

/-! ### Sources -/

namespace Work

variable {limit : Nat} {c : CacheId} {h : Host K V}

/-- A source that gives all of its first values is asked for the others next. -/
theorem run_storeAll_append {first : List (Routine K V (Except Panic (K × V)))}
    (stored : ((storeAll limit c first).run h).2 = .ok ())
    (others : List (Routine K V (Except Panic (K × V)))) :
    (storeAll limit c (first ++ others)).run h =
      (storeAll limit c others).run ((storeAll limit c first).run h).1 := by
  induction first generalizing h with
  | nil => rfl
  | cons next rest ih =>
    rw [List.cons_append, storeAll, run_bind]
    rw [storeAll, run_bind] at stored ⊢
    cases given : ((follow limit next).run h).2 with
    | error p =>
      rw [given] at stored
      cases stored
    | ok e =>
      rw [given] at stored
      dsimp only at stored ⊢
      rw [run_bind] at stored ⊢
      rw [run_bind]
      exact ih stored

/-- The first panic of a source ends the operation. -/
theorem run_storeAll_panic {next : Routine K V (Except Panic (K × V))} {p : Panic}
    (panics : ((follow limit next).run h).2 = .error p)
    (rest : List (Routine K V (Except Panic (K × V)))) :
    (storeAll limit c (next :: rest)).run h = (((follow limit next).run h).1, .error p) := by
  rw [storeAll, run_bind, panics]
  rfl

end Work

/-! ### Code of the caller, request by request -/

namespace Session

variable [BEq V] (s : Session K V) (limit : Nat) (c : CacheId)

/-- Code of the caller does what he does who makes its requests one after the other. -/
theorem run_asked (r : Routine K V α) : (s.run limit (r.asked limit s.host)).1 =
    ⟨((Work.follow limit r).run s.host).1, s.cursors⟩ := by
  induction r generalizing s with
  | done result => rfl
  | ask c request next ih =>
    have rest := ih ((Host.serve limit c request).run s.host).2
      ⟨((Host.serve limit c request).run s.host).1, s.cursors⟩
    rw [Routine.asked, run_cons, act_request, rest, Work.follow, Work.run_map, Work.follow,
      Work.run_map, Routine.work, Work.run_bind, Work.run_bind, Work.run_pure]

theorem length_answers (acts : List (Act K V)) : (s.run limit acts).2.length = acts.length := by
  induction acts generalizing s with
  | nil => rfl
  | cons a rest ih => rw [answers_cons, List.length_cons, List.length_cons, ih]

/-- What is done after an act and some more acts only depends on what they leave. -/
theorem run_after (a : Act K V) (more later : List (Act K V)) :
    let left := ((s.act limit a).1.run limit more).1
    let all := s.run limit (a :: (more ++ later))
    all.1 = (left.run limit later).1 ∧
      all.2.drop (more.length + 1) = (left.run limit later).2 := by
  intro left all
  refine ⟨?_, ?_⟩
  · rw [run_cons, run_append]
  · rw [answers_cons, run_append, List.drop_succ_cons]
    exact List.drop_left' (length_answers _ limit more)

variable {s limit c}

/-- A source that panics leaves what is stored of the values before, and what it asked for itself. -/
theorem act_insertAll_panic {first : List (Routine K V (Except Panic (K × V)))}
    (stored : (s.act limit (.on c (.insertAll first))).2 = .done)
    (next : Routine K V (Except Panic (K × V))) {p : Panic}
    (panics : ((Work.follow limit next).run (s.act limit (.on c (.insertAll first))).1.host).2 =
      .error p) (rest : List (Routine K V (Except Panic (K × V)))) :
    s.act limit (.on c (.insertAll (first ++ next :: rest))) =
      (((s.act limit (.on c (.insertAll first))).1.run limit
        (next.asked limit (s.act limit (.on c (.insertAll first))).1.host)).1, .fault (.panic p)) := by
  rw [run_asked]
  rw [act, carryOut, Act.work] at stored panics ⊢
  cases found : s.host.cache? c with
  | none =>
    rw [Work.run_command_of_none found] at stored
    cases stored
  | some cache =>
    rw [act, carryOut, Act.work]
    rw [Work.run_command found, Command.workOn, Work.run_bind, Work.run_pure] at stored panics ⊢
    rw [Work.run_command found, Command.workOn, Work.run_bind, Work.run_pure]
    rw [Work.insertAll, Work.run_bind] at stored panics ⊢
    rw [Work.insertAll, Work.run_bind]
    generalize ((Work.drain (Host.runCallbacks limit) c).run s.host).1 = h at stored panics ⊢
    have all : ((Work.storeAll limit c first).run h).2 = .ok () := by
      cases ends : ((Work.storeAll limit c first).run h).2 with
      | error p =>
        rw [ends] at stored
        cases stored
      | ok done => rfl
    rw [Work.run_storeAll_append all, Work.run_storeAll_panic panics]
    rfl

/-- A computation that panics leaves what the look-up before left, and what it asked for itself. -/
theorem act_getOrCompute_panic {key : K}
    (missed : (s.act limit (.on c (.request (.get key)))).2 = .reply (.value none))
    {compute : Routine K V (Except Panic V)} {p : Panic}
    (panics : ((Work.follow limit compute).run
      (s.act limit (.on c (.request (.get key)))).1.host).2 = .error p) :
    ∃ j, s.act limit (.on c (.getOrCompute key compute)) =
      (((s.act limit (.on c (.request (.get key)))).1.run limit
        (compute.asked limit (s.act limit (.on c (.request (.get key)))).1.host)).1.withJournal j,
        .fault (.panic p)) := by
  rw [run_asked]
  rw [act_request] at missed panics ⊢
  cases found : s.host.cache? c with
  | none =>
    rw [Host.serve, Host.perform, Work.run_bind, Work.run_make] at missed
    simp only [Move.make, found] at missed
    cases missed
  | some cache =>
    rw [Host.serve, Work.run_perform _ found, Work.performOn, Work.run_map] at missed panics ⊢
    obtain ⟨looked, got⟩ : ∃ looked, (Work.get (Host.runCallbacks limit) c key).run s.host = looked :=
      ⟨_, rfl⟩
    rw [got] at missed panics ⊢
    obtain ⟨host, value⟩ := looked
    obtain rfl : value = none := by
      injection missed with missed
      injection missed
    -- Noting that the look-up was served is all that the two have not in common.
    obtain ⟨j, ran⟩ := Work.unread_follow limit compute
      (host.record (.served c (.get key) (.value none))) host.journal
    refine ⟨j, ?_⟩
    have same : (host.record (.served c (.get key) (.value none))).withJournal host.journal = host :=
      rfl
    rw [act, carryOut, Act.work, Work.run_command found, Command.workOn, Work.run_bind, Work.run_pure,
      Work.getOrCompute, Work.run_bind, got]
    dsimp only
    rw [Work.run_bind]
    rw [same] at ran
    rw [ran]
    simp only [Move.make] at panics ⊢
    rw [panics]
    rfl

variable (s limit c)

/-- Code of the caller that panics leaves what was done by then, and nothing else: where a source
    panics, what storing the values before it leaves; where the computation of a missing value panics,
    what looking the value up leaves; and, where such code asks for anything itself, what these requests
    make of that. Whatever is done later comes to the same, but for the journal, in which a look-up
    within another operation is not noted. -/
theorem panic_keeps_what_was_done (later : List (Act K V)) :
    (∀ (pairs : List (K × V)) (p : Panic) (rest : List (Routine K V (Except Panic (K × V)))),
      (s.host.cache? c).isSome →
      let stored := s.run limit (.on c (.insertPairs pairs) :: later)
      ∃ answers, stored.2 = .done :: answers ∧
        s.run limit (.on c (.insertAll
          (pairs.map (fun e => .done (.ok e)) ++ .done (.error p) :: rest)) :: later) =
            (stored.1, .fault (.panic p) :: answers)) ∧
    (∀ (first rest : List (Routine K V (Except Panic (K × V)))) next p,
      let stored := s.act limit (.on c (.insertAll first))
      stored.2 = .done → ((Work.follow limit next).run stored.1.host).2 = .error p →
      let asked := next.asked limit stored.1.host
      let all := s.run limit (.on c (.insertAll first) :: (asked ++ later))
      s.run limit (.on c (.insertAll (first ++ next :: rest)) :: later) =
        (all.1, .fault (.panic p) :: all.2.drop (asked.length + 1))) ∧
    ∀ (key : K) (compute : Routine K V (Except Panic V)) (p : Panic),
      let looked := s.act limit (.on c (.request (.get key)))
      looked.2 = .reply (.value none) →
      ((Work.follow limit compute).run looked.1.host).2 = .error p →
      let asked := compute.asked limit looked.1.host
      let all := s.run limit (.on c (.request (.get key)) :: (asked ++ later))
      ∃ journal, s.run limit (.on c (.getOrCompute key compute) :: later) =
        (all.1.withJournal journal, .fault (.panic p) :: all.2.drop (asked.length + 1)) := by
  refine ⟨?_, ?_, ?_⟩
  · intro pairs p rest there stored
    obtain ⟨cache, found⟩ := Option.isSome_iff_exists.mp there
    have done := congrArg Prod.snd (act_insertPairs limit found pairs)
    have ends := act_insertAll_panic done (.done (.error p)) rfl rest
    refine ⟨((s.act limit (.on c (.insertPairs pairs))).1.run limit later).2, ?_, Prod.ext ?_ ?_⟩
    · exact (answers_cons s limit _ later).trans (congrArg (· :: _) done)
    · refine (run_cons s limit _ later).trans ?_
      rw [ends]
      exact (run_cons s limit _ later).symm
    · refine (answers_cons s limit _ later).trans ?_
      rw [ends]
      rfl
  · intro first rest next p stored done panics asked all
    obtain ⟨state, answers⟩ := s.run_after limit (.on c (.insertAll first)) asked later
    have ends := act_insertAll_panic done next panics rest
    refine Prod.ext ?_ ?_
    · rw [run_cons, ends, state]
    · rw [answers_cons s limit (.on c (.insertAll (first ++ next :: rest))), ends, answers]
  · intro key compute p looked missed panics asked all
    obtain ⟨state, answers⟩ := s.run_after limit (.on c (.request (.get key))) asked later
    obtain ⟨j, ends⟩ := act_getOrCompute_panic missed panics
    obtain ⟨journal, same⟩ := run_withJournal limit (looked.1.run limit asked).1 later j
    refine ⟨journal, Prod.ext ?_ ?_⟩
    · rw [run_cons, ends, same, state]
    · rw [answers_cons s limit (.on c (.getOrCompute key compute)), ends, same, answers]

end Session

end

/-! ### Panics in a cache whose cleaner looks values up -/

/-- A cache whose signal was raised twice, with a value to release. -/
def alarmedSession : Session UInt64 Nat := ((Session.empty ⟨#[5]⟩).run 2 (alarmingActs.take 5)).1

/-- Looks a value up, stores another one and panics. -/
def stumbling {α : Type} : Routine UInt64 Nat (Except Panic α) :=
  .inTurn 0 [.get 2, .insert 4 40] (.error .silent)

/-- What shows that nothing is left half done: what is found under three keys, and how many values
    there are. -/
def inspecting : List (Act UInt64 Nat) :=
  [.on 0 (.request (.get 3)), .on 0 (.request (.get 4)), .on 0 (.request (.get 5)),
    .on 0 (.request .length)]

/-- Nothing but the pair before a panic is stored, nothing but what the source and the computation
    stored themselves, and nothing under the key of the value that was computed. -/
theorem panic_keeps_what_was_done_alarmed :
    (∃ answers, ((alarmedSession.run 2 (.on 0 (.insertPairs [(3, 30)]) :: inspecting)).2 =
        .done :: answers ∧
      alarmedSession.run 2 (.on 0 (.insertAll [.done (.ok (3, 30)), .done (.error .silent),
          .done (.ok (5, 50))]) :: inspecting) =
        ((alarmedSession.run 2 (.on 0 (.insertPairs [(3, 30)]) :: inspecting)).1,
          .fault (.panic .silent) :: answers)) ∧
      answers = [.reply (.value (some 30)), .reply (.value none), .reply (.value none),
        .reply (.count 2)]) ∧
    (alarmedSession.run 2 (.on 0 (.insertAll [.done (.ok (3, 30)), stumbling, .done (.ok (5, 50))]) ::
        inspecting) =
      ((alarmedSession.run 2 (.on 0 (.insertAll [.done (.ok (3, 30))]) :: .on 0 (.request (.get 2)) ::
          .on 0 (.request (.insert 4 40)) :: inspecting)).1,
        [.fault (.panic .silent), .reply (.value (some 30)), .reply (.value (some 40)),
          .reply (.value none), .reply (.count 3)])) ∧
    ∃ journal, alarmedSession.run 2 (.on 0 (.getOrCompute 5 stumbling) :: inspecting) =
      ((alarmedSession.run 2 (.on 0 (.request (.get 5)) :: .on 0 (.request (.get 2)) ::
          .on 0 (.request (.insert 4 40)) :: inspecting)).1.withJournal journal,
        [.fault (.panic .silent), .reply (.value none), .reply (.value (some 40)),
          .reply (.value none), .reply (.count 2)]) := by
  have there : (alarmedSession.host.cache? 0).isSome := by decide +kernel
  obtain ⟨pairs, sources, computations⟩ :=
    Session.panic_keeps_what_was_done alarmedSession 2 0 inspecting
  refine ⟨?_, ?_, ?_⟩
  · obtain ⟨answers, stored, ends⟩ := pairs [(3, 30)] .silent [.done (.ok (5, 50))] there
    refine ⟨answers, ⟨stored, ends⟩, ?_⟩
    have told : (alarmedSession.run 2 (.on 0 (.insertPairs [(3, 30)]) :: inspecting)).2 = .done ::
        [.reply (.value (some 30)), .reply (.value none), .reply (.value none),
          .reply (.count 2)] := rfl
    exact (List.cons.inj (stored.symm.trans told)).2
  · exact sources [.done (.ok (3, 30))] [.done (.ok (5, 50))] stumbling .silent rfl rfl
  · exact computations 5 stumbling .silent rfl rfl

end ReclaimableCache
