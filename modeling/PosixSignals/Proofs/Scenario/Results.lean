import PosixSignals.Proofs.Scenario.LastCheck

/-!
# The results of calls

What the body of a call has come to is held by the frame of the call while
its last check point runs handlers. The caller receives it, unless the
process is marked as ended meanwhile, or a handler that the check point
runs comes back with an error: such an error means that everything is to
unwind, and it takes the result's place. A child that was reaped or a
signal that was consumed is lost with it.
-/

namespace PosixSignals

namespace System

variable {a s : System} {pid : Pid} {fs : List Frame} {call : SystemCall Handler}
  {r ret : Reply} {m m' : SignalSet}

/-- The step that concludes the body of a call begins its last check point. -/
theorem above_of_conclude (ha : Reachable a)
    (hbody : a.context? pid = some ⟨.callBody call :: fs, .reply r, m⟩) :
    ∃ p, (a.step pid).Above pid fs p
      ⟨[.callExit (call.handOver (call.conclude r))], .loop (.check false), m⟩ := by
  obtain ⟨p, hp, hx⟩ := context?_eq_some.1 hbody
  obtain ⟨q, x', hq, hx', hstep, -⟩ := goes_of_step ha.sound hp hx (by simp)
  obtain rfl := hstep.of_concluded
  exact ⟨q, hq, hx', by simp⟩

/-- **A completed call's result.** The body of a call has come to `r`, and after
a run of any moves during which its last check point lasts the call returns.
What the caller receives is exactly that result, unless the process has
been marked as ended, or a handler that the check point ran on this run has
come back with an error, which the caller then receives instead. -/
theorem result_received (ha : Reachable a)
    (hbody : a.context? pid = some ⟨.callBody call :: fs, .reply r, m⟩)
    (hrun : During pid fs.length (a.step pid) s)
    (hret : (s.step pid).context? pid = some ⟨fs, .reply ret, m'⟩) :
    ret = call.handOver (call.conclude r) ∨
      (ret = .error .mustExit ∧
        ∃ q, (s.step pid).process? pid = some q ∧ q.status.isExited = true) ∨
      ∃ u e, During pid fs.length (a.step pid) u ∧ During pid fs.length u s ∧
        u.HandlerFails pid fs e ∧ ret = .error e := by
  have hr := ha.move (.process pid)
  -- the errors of the handlers that fail on the way to `s`
  let failed (e : Errno) : Prop := ∃ u, During pid fs.length (a.step pid) u ∧
    During pid fs.length u s ∧ u.HandlerFails pid fs e
  -- by induction on the run so far, with the rest of it up to `s` carried along
  have hinv : ∀ u, During pid fs.length (a.step pid) u → During pid fs.length u s →
      ∃ p y, u.Above pid fs p y ∧
        y.LastCheck failed (call.handOver (call.conclude r)) p := by
    intro u hu
    induction hu with
    | refl =>
      intro _
      obtain ⟨p, hp⟩ := above_of_conclude ha hbody
      exact ⟨p, _, hp, Context.lastCheck_of_loop⟩
    | @tail u u' hu hm ih =>
      intro hs
      obtain ⟨p, y, hy, hlast⟩ := ih (.head hm hs)
      obtain ⟨⟨m, rfl⟩, hd⟩ := hm
      exact lastCheck_move (During.reachable hu hr).sound hy hlast
        (fun e he => ⟨u, hu, .head ⟨⟨m, rfl⟩, hd⟩ hs, he⟩) hd
  obtain ⟨p, y, hy, hlast⟩ := hinv s hrun .refl
  obtain ⟨q, hq, hend, ⟨he, -⟩ | ⟨e, he, ⟨rfl, hp⟩ | ⟨u, hu, hus, hfails⟩⟩⟩ :=
    lastCheck_return (hrun.reachable hr).sound hy hlast hret
  · exact .inl he
  · exact .inr (.inl ⟨he, q, hq, hend hp⟩)
  · exact .inr (.inr ⟨u, e, hu, hus, hfails, he⟩)

/-- A process with a handler for `chld` that comes back with an error has a
child, which returns `7` from main, and reaps it. -/
def reaping : List Move :=
  let handler : Handler := .mk "fails" 1 [{ request := .fail .perm }]
  [Move.host (.root "parent"),
    .host (.command 1 (.perform
      { request := .engine (.changeDisposition .chld (some (.handler { handler }))) })),
    .process 1, .process 1,
    .host (.command 1 (.perform { request := .system .fork }))] ++ List.replicate 6 (Move.process 1) ++
  [Move.host (.command 2 (.finish 7)), .process 2,
    .host (.command 1 (.perform { request := .system (.wait4 (-1) 0) })),
    .process 1, .process 1, .process 1]

/-- The wait has its result in hand, its last check point runs the handler, and the
handler fails. -/
theorem reaping_wait :
    let a := initial.run reaping
    let s := (a.step 1).run (List.replicate 5 (.process 1))
    a.context? 1 =
        some ⟨[.callBody (.wait4 (-1) 0), .main false], .reply (.ok (.child 2 1792)), ∅⟩ ∧
      During 1 1 (a.step 1) s ∧
      (s.step 1).context? 1 = some ⟨[.main false], .reply (.error .perm), ∅⟩ ∧
      ((s.step 1).process? 1).map (·.status) = some .normal :=
  ⟨by cbv, during_of_checks (by cbv), by cbv, by cbv⟩

/-- The parent receives an error, so a handler has failed on the way. -/
theorem result_received_of_wait4 :
    let a := initial.run reaping
    let s := (a.step 1).run (List.replicate 5 (.process 1))
    a.context? 1 = some ⟨[.callBody (.wait4 (-1) 0), .main false],
        .reply (.ok (.child 2 1792)), ∅⟩ ∧
      (s.step 1).context? 1 = some ⟨[.main false], .reply (.error .perm), ∅⟩ ∧
      ∃ u e, During 1 1 (a.step 1) u ∧ During 1 1 u s ∧ u.HandlerFails 1 [.main false] e ∧
        (.error .perm : Reply) = .error e := by
  obtain ⟨hcontext, hduring, hreturn, -⟩ := reaping_wait
  have hreceived := result_received (Reachable.initial.run reaping) hcontext hduring hreturn
  refine ⟨hcontext, hreturn, ?_⟩
  exact (hreceived.resolve_left (by simp [SystemCall.conclude, SystemCall.handOver])).resolve_left
    fun h => by simp at h

/-- **A failing handler takes the place of a result**: the child is reaped, its
parent is alive when the call returns, and receives the handler's error. -/
theorem reaped_child_lost :
    let a := initial.run reaping
    let s := (a.step 1).run (List.replicate 5 (.process 1))
    let result : Reply := .ok (.child 2 1792)
    Reachable a ∧
      a.context? 1 = some ⟨[.callBody (.wait4 (-1) 0), .main false], .reply result, ∅⟩ ∧
      During 1 1 (a.step 1) s ∧
      (s.step 1).context? 1 = some ⟨[.main false], .reply (.error .perm), ∅⟩ ∧
      ((s.step 1).process? 1).map (·.status) = some .normal ∧
      (.error .perm : Reply) ≠
        SystemCall.handOver (.wait4 (-1) 0 : SystemCall Handler)
          (SystemCall.conclude (.wait4 (-1) 0 : SystemCall Handler) result) := by
  obtain ⟨hcontext, hduring, hreturn, halive⟩ := reaping_wait
  exact ⟨Reachable.initial.run reaping, hcontext, hduring, hreturn, halive,
    by simp [SystemCall.conclude, SystemCall.handOver]⟩

end System

end PosixSignals
