import PosixSignals.Proofs.Scenario.Owed

/-!
# Children are reaped once

What the body of a wait for children comes to, over all runs: it reaps the
eldest of the dead among the children that are selected, with its final wait
status, or it says truly that there is none. Whoever is reaped is not known
any more, so nobody's wait comes to it again. And the death of a child is told to
its parent once, when the child can be reaped; a parent that waits for it is
not interrupted before it has got the child, or an older one.
-/

namespace PosixSignals

namespace System

variable {s s' : System} {pid parent c q : Pid} {p : Process} {w : WaitStatus} {selector : Int}
  {options : BitVec 32} {noHang : Bool} {m : Move} {moves : List Move} {fs : List Frame}
  {mask : SignalSet} {r r' : Reply} {x y : Context} {e : Errno}

/-! ## What the body of the call comes to -/

/-- **What a wait for children comes to**, in the state in which the answer is found; `s'` is the
state after it. -/
inductive Outcome (s : System) (pid : Pid) (p : Process) (selector : Int) (options : BitVec 32)
    (s' : System) : Reply → Prop
  | refused {e : Errno} (h : ∀ noHang, ¬Admits selector options noHang)
      (he : e = .inval ∨ e = .unsupported) : Outcome s pid p selector options s' (.error e)
  | childless {noHang : Bool} (ha : Admits selector options noHang)
      (h : selected p selector = []) : Outcome s pid p selector options s' (.error .child)
  | reaps {noHang : Bool} {c : Pid} {w : WaitStatus} (ha : Admits selector options noHang)
      (hc : 0 < c) (h : s.Eldest p selector c w) (hr : s.Reaps pid c w s') :
      Outcome s pid p selector options s' (.ok (.child c w))
  | hurries (ha : Admits selector options true) (h : s.AllLive p selector) :
      Outcome s pid p selector options s' (.ok (.child 0 0))
  | leaves (ha : Admits selector options false) (h : s.AllLive p selector)
      (he : p.status.isExited = true) : Outcome s pid p selector options s' (.error .mustExit)
  | interrupted (ha : Admits selector options false) (h : s.AllLive p selector)
      (hd : p.inbox.hasDeliverable = true) : Outcome s pid p selector options s' (.error .intr)

/-- A process comes to one reply at a time. -/
theorem Replies.unique (h : s.Replies pid r') (hy : s.context? pid = some ⟨fs, .reply r, mask⟩) :
    r = r' := by
  obtain ⟨x, hx, hc⟩ := h
  obtain rfl := Option.some.inj (hy.symm.trans hx)
  exact Control.reply.inj hc

theorem replies_of_answer (hy : (s.answer pid r').context? pid = some y) :
    (s.answer pid r').Replies pid r' := by
  obtain ⟨q, hq, hqy⟩ := context?_eq_some.1 hy
  exact ⟨y, hy, context?_of_answer hq hqy⟩

/-- **What a look comes to is what the body comes to.** -/
theorem outcome_of_look (hs : Reachable s) (hp : s.process? pid = some p) {t : Task}
    (ht : p.task = some t) (hc : t.control = .loop (.wait4 selector noHang))
    (ha : Admits selector options noHang)
    (hy : (s.step pid).context? pid = some ⟨fs, .reply r, mask⟩) :
    s.Outcome pid p selector options (s.step pid) r := by
  have hanswer : ∀ r', s.step pid = s.answer pid r' → r = r' := fun r' he =>
    (replies_of_answer (he ▸ hy)).unique (he ▸ hy)
  cases look hs ⟨hp, t, ht, hc⟩ with
  | childless h hstep =>
    obtain rfl := hanswer _ hstep
    exact .childless ha h
  | @reaps src c w h hsrc hstep =>
    obtain ⟨k, hk, hst⟩ := h.zombie
    have hr : s.Reaps pid c w (s.step pid) :=
      hstep ▸ reaps_of_zombie hs hp (mem_of_mem_selected h.selected) hk hst hsrc
    obtain rfl := (hr.replies hp ht).unique hy
    exact .reaps ha (hs.supplied.range_of_mem ((hs.supplied.known c).2 (by simp [hk]))).1 h hr
  | hurries h hn hstep =>
    obtain rfl := hanswer _ hstep
    exact .hurries (hn ▸ ha) h
  | leaves h hn he hstep =>
    obtain rfl := hanswer _ hstep
    exact .leaves (hn ▸ ha) h he
  | interrupted h hn hd hstep =>
    obtain rfl := hanswer _ hstep
    exact .interrupted (hn ▸ ha) h hd
  | blocks h hn hstep =>
    rw [hstep] at hy
    obtain ⟨q, hq, hqy⟩ := context?_eq_some.1 hy
    obtain rfl := eq_of_process?_act hp hq
    cases Process.control_of_goto hqy

/-- **The body of a wait comes to an answer** by a step of its own process, and to one that
is true at that moment. -/
theorem outcome_of_move (hs : Reachable s) (hy : (s.move m).context? pid =
      some ⟨.callBody (.wait4 selector options) :: fs, .reply r, mask⟩) :
    s.context? pid = some ⟨.callBody (.wait4 selector options) :: fs, .reply r, mask⟩ ∨
      m = .process pid ∧ ∃ p, s.process? pid = some p ∧
        s.Outcome pid p selector options (s.move m) r := by
  rcases context_of_move hs.sound hy with
    hx | ⟨hf, -⟩ | ⟨x, hx, htold⟩ | ⟨rfl, p, q, x, hp, hx, hstep⟩
  · exact .inl hx
  · cases hf
  · cases htold
  refine .inr ⟨rfl, p, hp, ?_⟩
  have hpx := context?_eq_some.2 ⟨p, hp, hx⟩
  have hposed := hs.posed _ x hpx
  obtain ⟨root, ht, -⟩ := Process.context?_eq_some.1 hx
  obtain ⟨hframes, ⟨selector', options', hc⟩ | ⟨selector', noHang, hc⟩⟩ :=
    hposed.toAttentive.origin hstep (by simp [Frame.isWait4]) rfl
  · -- the call has just begun
    have hfits := (hs.sound.contexts _ x hpx).fits
    rw [hc] at hfits
    obtain ⟨fs', hfs⟩ := List.head?_eq_some_iff.1 (show List.head? _ = some _ from hfits)
    obtain ⟨hcall, -⟩ := List.cons.inj (hframes.trans hfs)
    obtain ⟨rfl, rfl⟩ := SystemCall.wait4.inj (Frame.callBody.inj hcall)
    obtain ⟨noHang, -, he⟩ | ⟨hnot, e, he, hreply⟩ := begins_of_step hp hx hc hy
    · cases he
    · obtain rfl := Control.reply.inj hreply
      exact .refused hnot he
  · obtain ⟨options', fs', hfs, ha⟩ := hposed.asked selector' noHang (.inl hc)
    obtain ⟨hcall, -⟩ := List.cons.inj (hframes.trans hfs)
    obtain ⟨rfl, rfl⟩ := SystemCall.wait4.inj (Frame.callBody.inj hcall)
    exact outcome_of_look hs hp ht hc ha hy

/-- **On natural runs nobody descends from the dead**, so to reap a child touches nobody else. -/
theorem not_descends_of_zombie (hn : s.Natural) (hp : s.process? c = some p)
    (hz : p.status.isZombie = true) : ¬s.Descends q c := by
  have hforest := hn.family.isForest hn.tidy
  have hchild : ∀ b, ¬s.NamesParent b c := by
    rintro b ⟨k, hk, hpar⟩
    obtain ⟨kb, hb, rfl⟩ := kin?_eq_some.1 hk
    obtain ⟨pc, hpc, halive, -⟩ := hforest.parent b kb c
      (listed?_eq_some.2 ⟨hb, hforest.listed b kb hb⟩) hpar
    obtain rfl := Option.some.inj (hp.symm.trans (listed?_eq_some.1 hpc).1)
    exact absurd (hz.symm.trans halive) (by simp)
  intro hd
  cases hd with
  | single h => exact hchild _ h
  | tail _ h => exact hchild _ h

/-! ## Runs -/

/-- **What is kept about the children of every process**, from a state on. -/
structure ReapsOnce (s : System) : Prop where
  /-- The body of a wait comes to an answer by a step of its own process, and to one that is
  true at that moment. -/
  answers {m : Move} {pid : Pid} {selector : Int} {options : BitVec 32} {fs : List Frame}
    {r : Reply} {mask : SignalSet} (h : (s.move m).context? pid =
      some ⟨.callBody (.wait4 selector options) :: fs, .reply r, mask⟩) :
    s.context? pid = some ⟨.callBody (.wait4 selector options) :: fs, .reply r, mask⟩ ∨
      m = .process pid ∧ ∃ p, s.process? pid = some p ∧
        s.Outcome pid p selector options (s.move m) r
  /-- Where it looks it finds what there is: no child, a dead one, or what it is patient about. -/
  looks {pid : Pid} {p : Process} {selector : Int} {noHang : Bool}
    (h : s.Looks pid p selector noHang) : s.Look pid p selector noHang
  /-- Who has been reaped is not found again, by anybody, until its number is handed out. -/
  never {c : Pid} {moves : List Move} (h : s.process? c = none)
    (hb : births c (s.run moves).history = births c s.history) :
    (s.run moves).process? c = none ∧
      ∀ p selector w, ¬(s.run moves).Eldest p selector c w
  /-- Only the outside lets anybody descend from the dead. -/
  heirless {c q : Pid} {p : Process} (hn : s.Natural) (hp : s.process? c = some p)
    (hz : p.status.isZombie = true) : ¬s.Descends q c
  /-- Everybody dies by an end of his own, and his parent is told of it once. -/
  mourns {m : Move} {c : Pid} {src : Source} {new : List Record}
    (hnew : (s.move m).history = new ++ s.history) (h : ⟨src, .becameZombie c⟩ ∈ new) :
    m = .process c ∧ ∃ p, s.process? c = some p ∧ ∀ parent, p.parent = some parent →
      (∃ src w u, s.Mourned src c parent w u (s.move m)) ∧
        new.filterMap (·.event.tells?) = [parent]
  /-- A parent that waits for a child that dies gets it or an older one in two turns, unless the
  outside takes a child from it. Until then it can go on. -/
  wakes {c parent : Pid} {p : Process} {x : Context} {selector : Int} {noHang : Bool}
    (hp : s.process? c = some p) (hend : s.Finishing c) (hpar : p.parent = some parent)
    (hsel : selector = -1 ∨ (c : Int) = selector) (hx : s.context? parent = some x)
    (hwait : x.control = .loop (.wait4 selector noHang) ∨
      ∃ y, x.control = .blocked (.wait4 selector noHang) y) :
    ∃ w, (s.step c).Reapable parent c w ∧ ∀ moves,
      (∀ selector, Move.host (.reap parent selector) ∉ moves) →
        (∃ before after, moves = before ++ .process parent :: after ∧
          ((s.step c).run before).Grants parent selector noHang c w) ∨
        (parent ∈ ((s.step c).run moves).runnable ∧ turns parent moves < 2)

theorem Reachable.reapsOnce (hs : Reachable s) : s.ReapsOnce where
  answers h := outcome_of_move hs h
  looks h := look hs h
  never {c moves} h hb := by
    have hunknown : (s.run moves).process? c = none :=
      Option.map_eq_none_iff.1 (kin?_run_of_births hs (Option.map_eq_none_iff.2 h) hb)
    refine ⟨hunknown, fun p selector w he => ?_⟩
    obtain ⟨q, hq, -⟩ := he.zombie
    simp [hunknown] at hq
  heirless hn hp hz := not_descends_of_zombie hn hp hz
  mourns hnew h := by
    obtain ⟨rfl, p, t, e, hp, ht, hc⟩ := finishing_of_becameZombie hs.sound hnew h
    refine ⟨rfl, p, hp, fun parent hpar => ?_⟩
    obtain ⟨src, w, u, hm⟩ := mourned_of_finish hs hp ht hc hpar
    exact ⟨⟨src, w, u, hm⟩, hm.once hnew⟩
  wakes {c parent _ _ _ _} hp hend hpar hsel hx hwait := by
    obtain ⟨p', t, e, hp', ht, hc⟩ := hend
    obtain rfl := Option.some.inj (hp.symm.trans hp')
    obtain ⟨w, n, hn, howed⟩ := owed_of_finish hs hp ht hc hpar hsel hx hwait
    refine ⟨w, howed.reapable, fun moves hr => ?_⟩
    rcases howed.run (hs.move (.process c)) hr with hg | ⟨k, ho, hk⟩
    · exact .inl hg
    · exact .inr ⟨ho.mem_runnable, by omega⟩

/-- **Every child is reaped at most once, and what is said of it is true.** This holds in every
state of every run, whatever the outside does. -/
theorem reapsOnce_run (moves : List Move) : (initial.run moves).ReapsOnce :=
  (Reachable.initial.run moves).reapsOnce

/-- A root starts and forks. -/
def forking : List Move :=
  [Move.host (.root "parent"), .host (.command 1 (.perform { request := .system .fork }))] ++
  List.replicate 6 (Move.process 1)

/-- The child ends and is forked by the outside after its death, and the root is about to look
at its children. -/
def grieving : List Move :=
  forking ++ [Move.host (.command 2 (.finish 0)), .process 2, .host (.fork 2),
    .host (.command 1 (.perform { request := .system (.wait4 (-1) 0) })), .process 1, .process 1]

/-- The root forks once more and waits for any child, and both are about to end. -/
def racing : List Move :=
  forking ++ [Move.host (.command 1 (.perform { request := .system .fork }))] ++
  List.replicate 6 (Move.process 1) ++
  [Move.host (.command 1 (.perform { request := .system (.wait4 (-1) 0) })), .process 1, .process 1,
    .process 1, .host (.command 3 (.finish 0)), .host (.command 2 (.finish 0))]

/-- The root marks its own end but still runs, and the child is about to end. -/
def resigning : List Move :=
  forking ++ [Move.host (.command 1 (.perform { request := .system (.exit 7), keep := true })),
    .process 1, .process 1, .process 1, .host (.command 2 (.finish 0))]

/-- **What a reaping can touch, and what a waiting parent can miss.** The child of a zombie that
is reaped loses its parent. A parent that waits for any child when the younger one dies gets
the elder one, which dies before the parent looks; and it waits on if the outside has taken
the younger one from it. Nothing is generated against a parent that has marked its end. -/
theorem reaping_is_not_all :
    let bereaved := initial.run grieving
    let waits := initial.run racing
    let robbed := waits.run [.process 3, .host (.reap 1 3), .process 1, .process 1]
    let ended := initial.run resigning
    ((bereaved.step 1).Replies 1 (.ok (.child 2 0)) ∧
      (bereaved.process? 3).map (·.parent) = some (some 2) ∧
      ((bereaved.step 1).process? 3).map (·.parent) = some none) ∧
    ((∃ y, waits.context? 1 = some ⟨[.callBody (.wait4 (-1) 0), .main false],
        .blocked (.wait4 (-1) false) y, ∅⟩) ∧
      (waits.process? 3).map (·.parent) = some (some 1) ∧
      ((waits.step 3).process? 3).map (·.status) = some (.zombie 0) ∧
      (waits.run [.process 3, .process 2, .process 1, .process 1]).Replies 1
        (.ok (.child 2 0))) ∧
    ((robbed.process? 1).map (·.children) = some [2] ∧
      ∃ y, robbed.context? 1 = some ⟨[.callBody (.wait4 (-1) 0), .main false],
        .blocked (.wait4 (-1) false) y, ∅⟩) ∧
    ((ended.process? 1).map (·.status.isZombie) = some false ∧
      (ended.process? 2).map (·.parent) = some (some 1) ∧
      (ended.step 2).history = ⟨⟨some 2, []⟩, .dropped .chld 1⟩ ::
        ⟨⟨some 2, []⟩, .becameZombie 2⟩ :: ⟨⟨some 2, []⟩, .exited 2 0⟩ :: ended.history) := by
  have hreply : ∀ {s : System}, s.context? 1 = some ⟨[.callBody (.wait4 (-1) 0), .main false],
      .reply (.ok (.child 2 0)), ∅⟩ → s.Replies 1 (.ok (.child 2 0)) := fun hx => ⟨_, hx, rfl⟩
  refine ⟨⟨hreply (by cbv), by cbv, by cbv⟩, ⟨⟨⟨.child, 0, none⟩, by cbv⟩, by cbv, by cbv,
    hreply (by cbv)⟩, ⟨by cbv, ⟨.child, 2, none⟩, by cbv⟩, by cbv, by cbv, by cbv⟩

end System

end PosixSignals
