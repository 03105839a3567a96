import AutoAgents.TraceLoop

/-! What the supervisor keeps over all orders of reports. -/

namespace AutoAgents.Tracing

open Base
open Base.System

variable {Policy : Type} {leader : Pid} {w w' : World Policy} {pid : Pid}

/-- The loop has a tuple for the task that extends this one. -/
def Known (w : World Policy) (pid : Pid) (policies : List Policy) : Prop := ∃ tuple, w.loop.tasks pid = some tuple ∧ policies <+: tuple

/-- The creation event of a task is still to be reported. -/
def Awaited (w : World Policy) (pid : Pid) : Prop := ∃ creator policies, w.kernel creator = some ⟨policies, .stopped (.creation pid)⟩

/-- What holds between two reports. -/
structure Orderly (w : World Policy) : Prop where
  running : ∀ p t, w.kernel p = some ⟨t, .running⟩ → Known w p t
  signal : ∀ p t n, w.kernel p = some ⟨t, .stopped (.signal n)⟩ → Known w p t
  seccomp : ∀ p t a, w.kernel p = some ⟨t, .stopped (.seccomp a)⟩ → Known w p t
  creator : ∀ p t c, w.kernel p = some ⟨t, .stopped (.creation c)⟩ → Known w p t
  exec : ∀ p t q, w.kernel p = some ⟨t, .stopped (.exec q)⟩ → Known w q t ∧ (q = p ∨ w.kernel q = none)
  execOnce : ∀ p p' t t' q, w.kernel p = some ⟨t, .stopped (.exec q)⟩ → w.kernel p' = some ⟨t', .stopped (.exec q)⟩ → p = p'
  child : ∀ p t c, w.kernel p = some ⟨t, .stopped (.creation c)⟩ → w.loop.tasks c = none ∧
    ∀ tc phase, w.kernel c = some ⟨tc, phase⟩ → phase.ran = false ∧
      (phase.isDead = false → w.loop.exitedBeforeRegistration c = false ∧ Known w p tc)
  childOnce : ∀ p p' t t' c, w.kernel p = some ⟨t, .stopped (.creation c)⟩ → w.kernel p' = some ⟨t', .stopped (.creation c)⟩ → p = p'
  born : ∀ p t n, w.kernel p = some ⟨t, .born n⟩ → Awaited w p ∨ Known w p t
  held : ∀ p t, w.kernel p = some ⟨t, .held⟩ → w.loop.pending p = true ∧ Awaited w p
  pending : ∀ p, w.loop.pending p = true → ∃ t phase, w.kernel p = some ⟨t, phase⟩ ∧ (phase = .held ∨ phase = .dead false)

/-- A task that leaves no creation event behind, unless the child is dead. -/
def Settled (w : World Policy) (pid : Pid) : Prop := ∀ t c, w.kernel pid = some ⟨t, .stopped (.creation c)⟩ →
  ∀ tc phase, w.kernel c = some ⟨tc, phase⟩ → phase.isDead = true

/-- When the loop is not deceived: a new task has an id that the loop holds no tuple for, no early exit of and no creation event,
and no task dies with a creation event of a living child. -/
def Clear (w : World Policy) : Move Policy → Prop
  | .spawn _ child _ => w.loop.tasks child = none ∧ w.loop.exitedBeforeRegistration child = false ∧ ¬ Awaited w child
  | .exec _ pid => Settled w pid
  | .finish pid => Settled w pid
  | .report pid true => Settled w pid
  | _ => True

/-! ### Moves of the kernel -/

theorem put_kernel (k : Task Policy) (p : Pid) : (w.put pid k).kernel p = if p = pid then some k else w.kernel p := by
  simp [World.put, Function.update_apply]

theorem free_kernel (p : Pid) : (w.free pid).kernel p = if p = pid then none else w.kernel p := by
  simp [World.free, Function.update_apply]

@[simp] theorem put_loop (k : Task Policy) : (w.put pid k).loop = w.loop := rfl

@[simp] theorem free_loop : (w.free pid).loop = w.loop := rfl

theorem Awaited.put {p : Pid} {k : Task Policy} (h : Awaited w p)
    (hother : ∀ t, w.kernel pid ≠ some ⟨t, .stopped (.creation p)⟩) : Awaited (w.put pid k) p := by
  obtain ⟨q, t, hq⟩ := h
  have hne : q ≠ pid := fun heq => hother t (heq ▸ hq)
  exact ⟨q, t, by rw [put_kernel, if_neg hne, hq]⟩

/-- Where one task changes: what the loop knows of the others stays, and the task fits its new place. -/
theorem change_orderly (h : Orderly w) {t : List Policy} {old new : Phase Policy} (hk : w.kernel pid = some ⟨t, old⟩)
    (hk' : w'.kernel pid = some ⟨t, new⟩) (hother : ∀ p, p ≠ pid → w'.kernel p = w.kernel p) (hknown : ∀ p tp, Known w p tp → Known w' p tp)
    (hnone : ∀ c, w.loop.tasks c = none → w'.loop.tasks c = none)
    (hexit : w'.loop.exitedBeforeRegistration = w.loop.exitedBeforeRegistration)
    (hpend : ∀ p, p ≠ pid → w'.loop.pending p = w.loop.pending p)
    (hawaited : ∀ p tp phase, w.kernel p = some ⟨tp, phase⟩ → phase.isDead = false → Awaited w p → Awaited w' p)
    (hnew : (Known w' pid t ∧ w'.loop.pending pid = false ∧
        (new = .running ∨ (∃ n, new = .stopped (.signal n)) ∨ ∃ a, new = .stopped (.seccomp a))) ∨
      (new = .dead old.ran ∧ (w'.loop.pending pid = true → old.ran = false)) ∨
      (new = .held ∧ (∃ n, old = .born n) ∧ Awaited w' pid ∧ w'.loop.pending pid = true)) : Orderly w' := by
  have hself (hlive : new.ran = true) (hdead : new.isDead = false) (p : Pid) (tp : List Policy) :
      w.kernel p ≠ some ⟨tp, .stopped (.creation pid)⟩ := by
    intro hp
    have htasks := hnone pid (h.child p tp pid hp).1
    grind [Known, Phase.ran, Phase.isDead]
  constructor
  · have := h.running
    grind
  · have := h.signal
    grind
  · have := h.seccomp
    grind
  · have := h.creator
    grind
  · have := h.exec
    grind
  · have := h.execOnce
    grind
  · have := h.child
    grind [Phase.ran, Phase.isDead]
  · have := h.childOnce
    grind
  · have := h.born
    grind [Phase.isDead]
  · have := h.held
    grind [Phase.isDead]
  · have := h.pending
    grind

/-- A running task stops, with nothing that concerns another. -/
theorem stop_orderly (h : Orderly w) {event : Event Policy} {t : List Policy} (hk : w.kernel pid = some ⟨t, .running⟩)
    (hevent : (∃ n, event = .signal n) ∨ ∃ a, event = .seccomp a) : Orderly (w.put pid ⟨t, .stopped event⟩) := by
  have hpending : w.loop.pending pid = false := by
    by_contra hp
    obtain ⟨tp, old, hkp, hcase⟩ := h.pending pid (by simpa using hp)
    grind
  apply change_orderly h hk (by rw [put_kernel, if_pos rfl])
  · exact fun p hp => by rw [put_kernel, if_neg hp]
  · exact fun _ _ hp => hp
  · exact fun _ hc => hc
  · rfl
  · exact fun _ _ => rfl
  · refine fun p _ _ _ _ ha => ha.put fun _ heq => ?_
    rw [hk] at heq
    cases heq
  · refine .inl ⟨h.running pid t hk, hpending, .inr ?_⟩
    rcases hevent with ⟨n, rfl⟩ | ⟨a, rfl⟩
    · exact .inl ⟨n, rfl⟩
    · exact .inr ⟨a, rfl⟩

theorem finish_orderly (h : Orderly w) {t : List Policy} {phase : Phase Policy} (hk : w.kernel pid = some ⟨t, phase⟩)
    (hsettled : Settled w pid) : Orderly (w.put pid ⟨t, .dead phase.ran⟩) := by
  apply change_orderly h hk (by rw [put_kernel, if_pos rfl])
  · exact fun p hp => by rw [put_kernel, if_neg hp]
  · exact fun _ _ hp => hp
  · exact fun _ hc => hc
  · rfl
  · exact fun _ _ => rfl
  · refine fun p tp old hp hlive ha => ha.put fun tq heq => ?_
    have hdead := hsettled tq p heq tp old hp
    rw [hlive] at hdead
    cases hdead
  · refine .inr (.inl ⟨rfl, fun hp => ?_⟩)
    obtain ⟨tp, old, hkp, hcase⟩ := h.pending pid hp
    grind [Phase.ran]

theorem spawn_orderly (h : Orderly w) {creator child : Pid} {number : Nat} {t : List Policy} (hk : w.kernel creator = some ⟨t, .running⟩)
    (hfree : w.kernel child = none) (htasks : w.loop.tasks child = none) (hexited : w.loop.exitedBeforeRegistration child = false)
    (hfresh : ¬ Awaited w child) :
    Orderly ((w.put creator ⟨t, .stopped (.creation child)⟩).put child ⟨(w.loop.tasks creator).getD [], .born number⟩) := by
  have hknown := h.running creator t hk
  have hself : Known w creator ((w.loop.tasks creator).getD []) := by
    obtain ⟨tuple, htuple, -⟩ := hknown
    exact ⟨tuple, htuple, by rw [htuple]; exact List.prefix_refl tuple⟩
  have hne : creator ≠ child := fun heq => by
    rw [heq, hfree] at hk
    cases hk
  have hawaited (p : Pid) (ha : Awaited w p) :
      Awaited ((w.put creator ⟨t, .stopped (.creation child)⟩).put child ⟨(w.loop.tasks creator).getD [], .born number⟩) p := by
    refine (ha.put fun _ heq => ?_).put fun _ heq => ?_
    · rw [hk] at heq
      cases heq
    · rw [put_kernel, if_neg hne.symm, hfree] at heq
      cases heq
  have hnew : Awaited ((w.put creator ⟨t, .stopped (.creation child)⟩).put child ⟨(w.loop.tasks creator).getD [], .born number⟩) child :=
    ⟨creator, t, by rw [put_kernel, if_neg hne, put_kernel, if_pos rfl]⟩
  constructor
  · have := h.running
    grind [put_kernel, Known, put_loop]
  · have := h.signal
    grind [put_kernel, Known, put_loop]
  · have := h.seccomp
    grind [put_kernel, Known, put_loop]
  · have := h.creator
    grind [put_kernel, Known, put_loop]
  · have := h.exec
    grind [put_kernel, Known, put_loop]
  · have := h.execOnce
    grind [put_kernel]
  · intro p tp c hp
    have hcases : (p = creator ∧ c = child) ∨ w.kernel p = some ⟨tp, .stopped (.creation c)⟩ := by grind [put_kernel]
    rcases hcases with ⟨rfl, rfl⟩ | hp
    · refine ⟨htasks, fun tc phase hc => ?_⟩
      have hphase : tc = (w.loop.tasks p).getD [] ∧ phase = .born number := by grind [put_kernel]
      obtain ⟨rfl, rfl⟩ := hphase
      exact ⟨rfl, fun _ => ⟨hexited, hself⟩⟩
    · obtain ⟨hnone, hchild⟩ := h.child p tp c hp
      have hother : c ≠ child := fun heq => hfresh ⟨p, tp, heq ▸ hp⟩
      have hcreator : c ≠ creator := fun heq => by
        have hran := (hchild t .running (heq ▸ hk)).1
        cases hran
      refine ⟨hnone, fun tc phase hc => hchild tc phase ?_⟩
      grind [put_kernel]
  · have := h.childOnce
    grind [put_kernel, Awaited]
  · have := h.born
    grind [put_kernel, Known, put_loop]
  · have := h.held
    grind [put_kernel, put_loop]
  · have := h.pending
    grind [put_kernel, put_loop]

theorem exec_orderly (h : Orderly w) {thread : Pid} {t : List Policy} {old : Task Policy} (hk : w.kernel thread = some ⟨t, .running⟩)
    (hold : w.kernel pid = some old) (hran : old.phase.ran = true) (hsettled : Settled w pid) :
    Orderly ((w.free thread).put pid ⟨t, .stopped (.exec thread)⟩) := by
  have hknown := h.running thread t hk
  have hawaited (p : Pid) (tp : List Policy) (phase : Phase Policy) (hp : w.kernel p = some ⟨tp, phase⟩) (hlive : phase.isDead = false)
      (ha : Awaited w p) : Awaited ((w.free thread).put pid ⟨t, .stopped (.exec thread)⟩) p := by
    obtain ⟨q, tq, hq⟩ := ha
    have hthread : q ≠ thread := by grind
    have hpid : q ≠ pid := by
      rintro rfl
      have hdead := hsettled tq p hq tp phase hp
      rw [hlive] at hdead
      cases hdead
    exact ⟨q, tq, by rw [put_kernel, if_neg hpid, free_kernel, if_neg hthread, hq]⟩
  constructor
  · have := h.running
    grind [put_kernel, free_kernel, Known, put_loop, free_loop]
  · have := h.signal
    grind [put_kernel, free_kernel, Known, put_loop, free_loop]
  · have := h.seccomp
    grind [put_kernel, free_kernel, Known, put_loop, free_loop]
  · have := h.creator
    grind [put_kernel, free_kernel, Known, put_loop, free_loop]
  · have := h.exec
    grind [put_kernel, free_kernel, Known, put_loop, free_loop]
  · have := h.execOnce
    have := h.exec
    grind [put_kernel, free_kernel]
  · intro p tp c hp
    have hp' : w.kernel p = some ⟨tp, .stopped (.creation c)⟩ := by grind [put_kernel, free_kernel]
    obtain ⟨hnone, hchild⟩ := h.child p tp c hp'
    have hpid : c ≠ pid := by
      rintro rfl
      have hyoung := (hchild old.policies old.phase hold).1
      rw [hran] at hyoung
      cases hyoung
    have hthread : c ≠ thread := by
      rintro rfl
      have hyoung := (hchild t .running hk).1
      cases hyoung
    refine ⟨hnone, fun tc phase hc => hchild tc phase ?_⟩
    grind [put_kernel, free_kernel]
  · have := h.childOnce
    grind [put_kernel, free_kernel]
  · have := h.born
    grind [put_kernel, free_kernel, Known, put_loop, free_loop, Phase.isDead]
  · have := h.held
    grind [put_kernel, free_kernel, put_loop, free_loop, Phase.isDead]
  · have := h.pending
    grind [put_kernel, free_kernel, put_loop, free_loop, Phase.ran]

/-! ### Reports -/

/-- The same kernel with another state of the loop. -/
def World.take (w : World Policy) (loop : Loop Policy) : World Policy := { w with loop := loop }

@[simp] theorem take_kernel (loop : Loop Policy) : (w.take loop).kernel = w.kernel := rfl

@[simp] theorem take_loop (loop : Loop Policy) : (w.take loop).loop = loop := rfl

section

variable {t : List Policy} {phase : Phase Policy} {loop : Loop Policy}

theorem put_kernel_self (k : Task Policy) : ((w.put pid k).take loop).kernel pid = some k := (put_kernel k pid).trans (if_pos rfl)

theorem put_kernel_other (k : Task Policy) {p : Pid} (hp : p ≠ pid) : ((w.put pid k).take loop).kernel p = w.kernel p :=
  (put_kernel k p).trans (if_neg hp)

theorem settled_eq (hk : w.kernel pid = some ⟨t, phase⟩) {lost : Bool} {resumed : List Pid} {k : Task Policy}
    (hown : (⟨t, phase⟩ : Task Policy).settle true lost (resumed.contains pid) = k) (hother : ∀ r ∈ resumed, r = pid) :
    w.settled pid lost (.ok (loop, resumed)) = (w.put pid k).take loop := by
  have hkernel (r : Pid) : (w.settled pid lost (.ok (loop, resumed))).kernel r = ((w.put pid k).take loop).kernel r := by
    rw [take_kernel, put_kernel]
    simp only [World.settled]
    by_cases hr : r = pid
    · rw [if_pos hr, hr, hk, Option.map_some, beq_self_eq_true, hown]
    · have hcontains : resumed.contains r = false := by
        rw [List.contains_eq_mem, decide_eq_false_iff_not]
        exact fun hmem => hr (hother r hmem)
      rw [if_neg hr, hcontains, beq_false_of_ne hr]
      cases w.kernel r <;> simp [Task.settle]
  have hfun := funext hkernel
  simp only [World.settled, World.take, World.put] at hfun ⊢
  rw [hfun]

theorem settled_other {r : Pid} (hr : r ≠ pid) {lost : Bool} {resumed : List Pid} (hresumed : r ∉ resumed) :
    (w.settled pid lost (.ok (loop, resumed))).kernel r = w.kernel r := by
  simp only [World.settled, List.contains_eq_mem, hresumed, decide_false, beq_false_of_ne hr]
  cases w.kernel r <;> simp [Task.settle]

theorem settled_run (hk : w.kernel pid = some ⟨t, phase⟩) (hlive : phase.isDead = false) :
    w.settled pid false (.ok (loop, [pid])) = (w.put pid ⟨t, .running⟩).take loop :=
  settled_eq hk (by simp [Task.settle, hlive]) (by simp)

theorem settled_held (hk : w.kernel pid = some ⟨t, phase⟩) (hlive : phase.isDead = false) :
    w.settled pid false (.ok (loop, [])) = (w.put pid ⟨t, .held⟩).take loop :=
  settled_eq hk (by simp [Task.settle, hlive]) (by simp)

theorem settled_lost (hk : w.kernel pid = some ⟨t, phase⟩) (hlive : phase.isDead = false) {resumed : List Pid} (hother : ∀ r ∈ resumed, r = pid) :
    w.settled pid true (.ok (loop, resumed)) = (w.put pid ⟨t, .dead phase.ran⟩).take loop :=
  settled_eq hk (by simp [Task.settle, hlive]) hother

/-- The end of a task is taken. -/
theorem exited_orderly (h : Orderly w) {ran : Bool} (hk : w.kernel pid = some ⟨t, .dead ran⟩) :
    Orderly ((w.free pid).take (w.loop.exited pid)) := by
  have hawaited (p : Pid) (ha : Awaited w p) : Awaited ((w.free pid).take (w.loop.exited pid)) p := by
    obtain ⟨q, tq, hq⟩ := ha
    have hne : q ≠ pid := by grind
    exact ⟨q, tq, by rw [take_kernel, free_kernel, if_neg hne, hq]⟩
  have hexited (p : Pid) (hp : p ≠ pid) : (w.loop.exited pid).exitedBeforeRegistration p = w.loop.exitedBeforeRegistration p := by
    unfold Loop.exited
    simp only
    split
    · rfl
    · exact Function.update_of_ne hp _ _
  have htasks (p : Pid) : (w.loop.exited pid).tasks p = if p = pid then none else w.loop.tasks p := by
    simp [Loop.exited, Function.update_apply]
  have hpending (p : Pid) : (w.loop.exited pid).pending p = if p = pid then false else w.loop.pending p := by
    simp [Loop.exited, Function.update_apply]
  have hkernel (p : Pid) : ((w.free pid).take (w.loop.exited pid)).kernel p = if p = pid then none else w.kernel p := free_kernel p
  constructor
  · have := h.running
    grind [take_loop, Known]
  · have := h.signal
    grind [take_loop, Known]
  · have := h.seccomp
    grind [take_loop, Known]
  · have := h.creator
    grind [take_loop, Known]
  · have := h.exec
    grind [take_loop, Known]
  · have := h.execOnce
    grind
  · have := h.child
    grind [take_loop, Known]
  · have := h.childOnce
    grind
  · have := h.born
    grind [take_loop, Known]
  · have := h.held
    grind [take_loop]
  · have := h.pending
    grind [take_loop]

/-- A task that the loop knows is resumed after its first stop, a signal or a system call, and the tuple may have grown. -/
theorem resumed_orderly (h : Orderly w) (hk : w.kernel pid = some ⟨t, phase⟩) (more : List Policy) (hplain : ∀ e, phase = .stopped e → (∃ n, e = .signal n) ∨ ∃ a, e = .seccomp a)
    {tuple : List Policy} (htuple : w.loop.tasks pid = some tuple) (hbegins : t <+: tuple)
    (hloop : loop = { w.loop with tasks := Function.update w.loop.tasks pid (some (tuple ++ more)) }) {new : Phase Policy}
    (hnew : new = .running ∨ new = .dead phase.ran) (hpending : w.loop.pending pid = false) :
    Orderly ((w.put pid ⟨t, new⟩).take loop) := by
  have htasks (p : Pid) : loop.tasks p = if p = pid then some (tuple ++ more) else w.loop.tasks p := by
    rw [hloop]
    exact Function.update_apply _ _ _ _
  have hknown (p : Pid) (tp : List Policy) (hp : Known w p tp) : Known ((w.put pid ⟨t, new⟩).take loop) p tp := by
    obtain ⟨tuple', htuple', hbegins'⟩ := hp
    by_cases hp : p = pid
    · subst hp
      obtain rfl : tuple = tuple' := Option.some.inj (htuple.symm.trans htuple')
      exact ⟨tuple ++ more, by rw [take_loop, htasks, if_pos rfl], hbegins'.trans (List.prefix_append tuple more)⟩
    · exact ⟨tuple', by rw [take_loop, htasks, if_neg hp, htuple'], hbegins'⟩
  have hself : Known ((w.put pid ⟨t, new⟩).take loop) pid t := hknown pid t ⟨tuple, htuple, hbegins⟩
  apply change_orderly h hk (put_kernel_self ⟨t, new⟩)
  · exact fun p hp => put_kernel_other _ hp
  · exact hknown
  · intro c hc
    rw [take_loop, htasks, if_neg]
    · exact hc
    · rintro rfl
      rw [hc] at htuple
      cases htuple
  · rw [take_loop, hloop]
  · exact fun p _ => by rw [take_loop, hloop]
  · refine fun p _ _ _ _ ha => ha.put fun _ heq => ?_
    grind
  · have hpend : ((w.put pid ⟨t, new⟩).take loop).loop.pending pid = false := by rw [take_loop, hloop, hpending]
    rcases hnew with rfl | rfl
    · exact .inl ⟨hself, hpend, .inl rfl⟩
    · refine .inr (.inl ⟨rfl, fun hp => ?_⟩)
      rw [hpend] at hp
      cases hp

/-- A first stop is kept until the creation event. -/
theorem held_orderly (h : Orderly w) {number : Nat} (hk : w.kernel pid = some ⟨t, .born number⟩) (hnone : w.loop.tasks pid = none)
    (hloop : loop = { w.loop with pending := Function.update w.loop.pending pid true }) : Orderly ((w.put pid ⟨t, .held⟩).take loop) := by
  have hself : Awaited w pid := (h.born pid t number hk).resolve_right fun hknown => by
    obtain ⟨tuple, htuple, -⟩ := hknown
    rw [hnone] at htuple
    cases htuple
  have hawaited (p : Pid) (ha : Awaited w p) : Awaited ((w.put pid ⟨t, .held⟩).take loop) p := ha.put fun _ heq => by grind
  have htasks : loop.tasks = w.loop.tasks := by rw [hloop]
  apply change_orderly h hk (put_kernel_self ⟨t, .held⟩)
  · exact fun p hp => put_kernel_other _ hp
  · rintro p tp ⟨tuple, htuple, hbegins⟩
    exact ⟨tuple, by rw [take_loop, htasks, htuple], hbegins⟩
  · exact fun c hc => by rw [take_loop, htasks, hc]
  · rw [take_loop, hloop]
  · intro p hp
    rw [take_loop, hloop]
    exact Function.update_of_ne hp _ _
  · exact fun p _ _ _ _ ha => hawaited p ha
  · refine .inr (.inr ⟨rfl, ⟨number, rfl⟩, hawaited pid hself, ?_⟩)
    rw [take_loop, hloop]
    exact Function.update_self _ _ _

/-- The task that is left of an exec has the tuple of the thread that called it. -/
theorem execed_orderly (h : Orderly w) {former : Pid} {tuple : List Policy} (hk : w.kernel pid = some ⟨t, .stopped (.exec former)⟩)
    (htuple : w.loop.tasks former = some tuple) {resumed : List Pid} (hloop : w.loop.execed pid former = .ok (loop, resumed)) :
    resumed = [pid] ∧ loop.tasks pid = some tuple ∧ Orderly ((w.put pid ⟨t, .running⟩).take loop) := by
  have hknown := (h.exec pid t former hk).1
  have hgone := (h.exec pid t former hk).2
  simp only [Loop.execed, htuple, Except.ok.injEq, Prod.mk.injEq] at hloop
  obtain ⟨hloop, rfl⟩ := hloop
  have htasks (p : Pid) : loop.tasks p = if p = pid then some tuple else if p = former then none else w.loop.tasks p := by
    rw [← hloop]
    split
    · next heq =>
      subst heq
      by_cases hp : p = former <;> grind
    · simp [Function.update_apply]
  have hpend (p : Pid) : loop.pending p = if p = pid then false else w.loop.pending p := by
    rw [← hloop]
    split <;> simp [Function.update_apply]
  have hexit : loop.exitedBeforeRegistration = w.loop.exitedBeforeRegistration := by
    rw [← hloop]
    split <;> rfl
  have hkernel (p : Pid) : ((w.put pid ⟨t, .running⟩).take loop).kernel p = if p = pid then some ⟨t, .running⟩ else w.kernel p := put_kernel _ p
  have hawaited (p : Pid) (ha : Awaited w p) : Awaited ((w.put pid ⟨t, .running⟩).take loop) p := ha.put fun _ heq => by grind
  have hbegins : t <+: tuple := by
    obtain ⟨tuple', htuple', hbegins⟩ := hknown
    rwa [Option.some.inj (htuple.symm.trans htuple')]
  have hother (p : Pid) (k : Task Policy) (hp : w.kernel p = some k) (hne : p ≠ pid) : p ≠ former := by grind
  refine ⟨rfl, by rw [htasks, if_pos rfl], ?_⟩
  constructor
  · have := h.running
    grind [take_loop, Known]
  · have := h.signal
    grind [take_loop, Known]
  · have := h.seccomp
    grind [take_loop, Known]
  · have := h.creator
    grind [take_loop, Known]
  · have := h.exec
    have := h.execOnce
    grind [take_loop, Known]
  · have := h.execOnce
    grind
  · intro p tp c hp
    have hne : p ≠ pid := by grind
    have hp' : w.kernel p = some ⟨tp, .stopped (.creation c)⟩ := by rwa [hkernel, if_neg hne] at hp
    obtain ⟨hnone, hchild⟩ := h.child p tp c hp'
    have hpid : c ≠ pid := by
      rintro rfl
      have hyoung := (hchild t _ hk).1
      cases hyoung
    refine ⟨by grind [take_loop], fun tc phase hc => ?_⟩
    obtain ⟨hran, hlive⟩ := hchild tc phase (by rwa [hkernel, if_neg hpid] at hc)
    refine ⟨hran, fun hdead => ?_⟩
    obtain ⟨hexited, tuple', htuple', hbegins'⟩ := hlive hdead
    refine ⟨by rw [take_loop, hexit, hexited], tuple', ?_, hbegins'⟩
    rw [take_loop, htasks, if_neg hne, if_neg (hother p _ hp' hne), htuple']
  · have := h.childOnce
    grind
  · have := h.born
    grind [take_loop, Known]
  · have := h.held
    grind [take_loop]
  · have := h.pending
    grind [take_loop]

/-- The creation event of a task whose end was reported before it. -/
theorem forgotten_orderly (h : Orderly w) {child : Pid} (hk : w.kernel pid = some ⟨t, .stopped (.creation child)⟩)
    (hexited : w.loop.exitedBeforeRegistration child = true)
    (hloop : loop = { w.loop with exitedBeforeRegistration := Function.update w.loop.exitedBeforeRegistration child false }) :
    Orderly ((w.put pid ⟨t, .running⟩).take loop) := by
  have hexit (p : Pid) : loop.exitedBeforeRegistration p = if p = child then false else w.loop.exitedBeforeRegistration p := by
    rw [hloop]
    exact Function.update_apply _ _ _ _
  have htasks : loop.tasks = w.loop.tasks := by rw [hloop]
  have hpend : loop.pending = w.loop.pending := by rw [hloop]
  have hkernel (p : Pid) : ((w.put pid ⟨t, .running⟩).take loop).kernel p = if p = pid then some ⟨t, .running⟩ else w.kernel p := put_kernel _ p
  have hknown := h.creator pid t child hk
  have hgone : ∀ tc phase, w.kernel child = some ⟨tc, phase⟩ → phase.isDead = true := by
    intro tc phase hc
    by_contra hlive
    have hfalse := (((h.child pid t child hk).2 tc phase hc).2 (by simpa using hlive)).1
    rw [hexited] at hfalse
    cases hfalse
  have hawaited (p : Pid) (hp : p ≠ child) (ha : Awaited w p) : Awaited ((w.put pid ⟨t, .running⟩).take loop) p := ha.put fun _ heq => by grind
  constructor
  · have := h.running
    grind [take_loop, Known]
  · have := h.signal
    grind [take_loop, Known]
  · have := h.seccomp
    grind [take_loop, Known]
  · have := h.creator
    grind [take_loop, Known]
  · have := h.exec
    grind [take_loop, Known]
  · have := h.execOnce
    grind
  · intro p tp c hp
    have hpp : p ≠ pid := by grind
    have hp' : w.kernel p = some ⟨tp, .stopped (.creation c)⟩ := by rwa [hkernel, if_neg hpp] at hp
    have hcc : c ≠ child := fun heq => hpp (h.childOnce p pid tp t child (heq ▸ hp') hk)
    obtain ⟨hnone, hyoung⟩ := h.child p tp c hp'
    have hcp : c ≠ pid := by
      rintro rfl
      have hran := (hyoung t _ hk).1
      cases hran
    refine ⟨by rw [take_loop, htasks, hnone], fun tc phase hc => ?_⟩
    obtain ⟨hran, hlive⟩ := hyoung tc phase (by rwa [hkernel, if_neg hcp] at hc)
    refine ⟨hran, fun hdead => ?_⟩
    obtain ⟨hfalse, tuple, htuple, hbegins⟩ := hlive hdead
    exact ⟨by rw [take_loop, hexit, if_neg hcc, hfalse], tuple, by rw [take_loop, htasks, htuple], hbegins⟩
  · have := h.childOnce
    grind
  · have := h.born
    grind [take_loop, Known, Phase.isDead]
  · have := h.held
    grind [take_loop, Phase.isDead]
  · intro p hp
    obtain ⟨tp, old, hkp, hcase⟩ := h.pending p (by rwa [take_loop, hpend] at hp)
    have hne : p ≠ pid := by grind
    exact ⟨tp, old, by rw [hkernel, if_neg hne, hkp], hcase⟩

/-- The creation event of a task: it has the tuple of its creator, and is resumed where it was held. -/
theorem registered_orderly (h : Orderly w) {child : Pid} {tuple : List Policy} (hk : w.kernel pid = some ⟨t, .stopped (.creation child)⟩)
    (htuple : w.loop.tasks pid = some tuple)
    (htasks : ∀ p, w'.loop.tasks p = if p = child then some tuple else w.loop.tasks p)
    (hpend : ∀ p, w'.loop.pending p = if p = child then false else w.loop.pending p)
    (hexit : w'.loop.exitedBeforeRegistration = w.loop.exitedBeforeRegistration)
    (hpid : w'.kernel pid = some ⟨t, .running⟩) (hother : ∀ p, p ≠ pid → p ≠ child → w'.kernel p = w.kernel p)
    (hchild : ∀ tc new, w'.kernel child = some ⟨tc, new⟩ → ∃ old, w.kernel child = some ⟨tc, old⟩ ∧
      ((new = old ∧ old ≠ .held) ∨ (old = .held ∧ new = .running))) : Orderly w' := by
  have hne : child ≠ pid := by
    rintro rfl
    have hyoung := ((h.child child t child hk).2 t _ hk).1
    cases hyoung
  have hself := h.creator pid t child hk
  obtain ⟨hnone, hyoung⟩ := h.child pid t child hk
  have hnew : ∀ tc old, w.kernel child = some ⟨tc, old⟩ → old.isDead = false → Known w' child tc := by
    intro tc old hc hlive
    obtain ⟨-, tuple', htuple', hbegins⟩ := (hyoung tc old hc).2 hlive
    refine ⟨tuple, by rw [htasks, if_pos rfl], ?_⟩
    rwa [Option.some.inj (htuple.symm.trans htuple')]
  have hmono (p : Pid) (tp : List Policy) (hp : Known w p tp) : Known w' p tp := by
    obtain ⟨tuple', htuple', hbegins⟩ := hp
    have hpc : p ≠ child := by
      rintro rfl
      rw [hnone] at htuple'
      cases htuple'
    exact ⟨tuple', by rw [htasks, if_neg hpc, htuple'], hbegins⟩
  have hawaited (p : Pid) (hp : p ≠ child) (ha : Awaited w p) : Awaited w' p := by
    obtain ⟨q, tq, hq⟩ := ha
    have hqp : q ≠ pid := by grind
    have hqc : q ≠ child := by
      rintro rfl
      have hran := (hyoung tq _ hq).1
      cases hran
    exact ⟨q, tq, by rw [hother q hqp hqc, hq]⟩
  constructor
  · have := h.running
    grind [Phase.isDead]
  · have := h.signal
    grind [Phase.ran]
  · have := h.seccomp
    grind [Phase.ran]
  · have := h.creator
    grind [Phase.ran]
  · intro p tp q hp
    have hp' : w.kernel p = some ⟨tp, .stopped (.exec q)⟩ := by grind [Phase.ran]
    obtain ⟨hknown, hgone⟩ := h.exec p tp q hp'
    have hqc : q ≠ child := by
      rintro rfl
      obtain ⟨tuple', htuple', -⟩ := hknown
      rw [hnone] at htuple'
      cases htuple'
    refine ⟨hmono q tp hknown, ?_⟩
    grind
  · have := h.execOnce
    grind [Phase.ran]
  · intro p tp c hp
    have hp' : w.kernel p = some ⟨tp, .stopped (.creation c)⟩ := by grind [Phase.ran]
    have hpp : p ≠ pid := by grind
    have hcc : c ≠ child := fun heq => hpp (h.childOnce p pid tp t child (heq ▸ hp') hk)
    obtain ⟨hnone', hyoung'⟩ := h.child p tp c hp'
    have hcp : c ≠ pid := by
      rintro rfl
      have hran := (hyoung' t _ hk).1
      cases hran
    refine ⟨by rw [htasks, if_neg hcc, hnone'], fun tc phase hc => ?_⟩
    obtain ⟨hran, hlive⟩ := hyoung' tc phase (by rwa [hother c hcp hcc] at hc)
    refine ⟨hran, fun hdead => ?_⟩
    obtain ⟨hexited, hknown⟩ := hlive hdead
    exact ⟨by rw [hexit, hexited], hmono p tc hknown⟩
  · have := h.childOnce
    grind [Phase.ran]
  · have := h.born
    grind [Phase.isDead]
  · have := h.held
    grind
  · have := h.pending
    grind

end

/-! ### One report -/

/-- A task that stops with a signal, for the first time or later, and has a tuple. -/
theorem known_of_registered (h : Orderly w) {t : List Policy} {phase : Phase Policy} (hk : w.kernel pid = some ⟨t, phase⟩) {number : Nat}
    (hevent : phase = .stopped (.signal number) ∨ ∃ n, phase = .born n ∧ Event.signal number = (.signal n : Event Policy))
    {tuple : List Policy} (htuple : w.loop.tasks pid = some tuple) : Known w pid t := by
  rcases hevent with rfl | ⟨n, rfl, -⟩
  · exact h.signal pid t number hk
  · refine (h.born pid t n hk).resolve_left ?_
    rintro ⟨q, tq, hq⟩
    rw [(h.child q tq pid hq).1] at htuple
    cases htuple

theorem created_orderly (h : Orderly w) {t tuple : List Policy} {child : Pid} (hk : w.kernel pid = some ⟨t, .stopped (.creation child)⟩)
    (htuple : w.loop.tasks pid = some tuple) {loop : Loop Policy} {resumed : List Pid}
    (hcreated : w.loop.created pid tuple child = .ok (loop, resumed)) : Orderly (w.settled pid false (.ok (loop, resumed))) := by
  have hne : child ≠ pid := by
    rintro rfl
    have hyoung := ((h.child child t child hk).2 t _ hk).1
    cases hyoung
  unfold Loop.created at hcreated
  split at hcreated
  · next hexited =>
    rw [Except.ok.injEq, Prod.mk.injEq] at hcreated
    obtain ⟨hloop, rfl⟩ := hcreated
    rw [settled_run hk rfl]
    exact forgotten_orderly h hk hexited hloop.symm
  · split at hcreated
    · cases hcreated
    · split at hcreated
      · next hpending =>
        rw [Except.ok.injEq, Prod.mk.injEq] at hcreated
        obtain ⟨rfl, rfl⟩ := hcreated
        apply registered_orderly h hk htuple
        · exact fun p => Function.update_apply _ _ _ _
        · exact fun p => Function.update_apply _ _ _ _
        · rfl
        · simp [World.settled, hk, Task.settle, Phase.isDead]
        · exact fun p hp hc => settled_other hp (by simp [hp, hc])
        · intro tc new hnew
          obtain ⟨tp, old, hkp, hcase⟩ := h.pending child hpending
          simp only [World.settled, hkp, Option.map_some, Option.some.injEq] at hnew
          rcases hcase with rfl | rfl
          · simp only [Task.settle, Phase.isDead, beq_false_of_ne hne, List.contains_cons, beq_self_eq_true, Bool.true_or,
              Bool.false_eq_true, false_and, if_false, if_true, Task.mk.injEq] at hnew
            exact ⟨.held, by rw [hkp, hnew.1], .inr ⟨rfl, hnew.2.symm⟩⟩
          · simp only [Task.settle, Phase.isDead, if_true, Task.mk.injEq] at hnew
            exact ⟨.dead false, by rw [hkp, hnew.1], .inl ⟨hnew.2.symm, by simp⟩⟩
      · next hpending =>
        rw [Except.ok.injEq, Prod.mk.injEq] at hcreated
        obtain ⟨rfl, rfl⟩ := hcreated
        have hfalse : w.loop.pending child = false := by simpa using hpending
        apply registered_orderly h hk htuple
        · exact fun p => Function.update_apply _ _ _ _
        · intro p
          split
          · next heq => exact heq ▸ hfalse
          · rfl
        · rfl
        · simp [World.settled, hk, Task.settle, Phase.isDead]
        · exact fun p hp _ => settled_other hp (by simp [hp])
        · intro tc new hnew
          rw [settled_other hne (by simp [hne])] at hnew
          refine ⟨new, hnew, .inl ⟨rfl, ?_⟩⟩
          rintro rfl
          rw [(h.held child tc hnew).1] at hfalse
          cases hfalse

/-- What the loop makes of a stop of a task that is alive: nothing more where it raises, else what is resumed is known, and the rest
stays in order. -/
theorem stopped_orderly (h : Orderly w) {t : List Policy} {phase : Phase Policy} (hk : w.kernel pid = some ⟨t, phase⟩) {event : Event Policy}
    (hevent : phase = .stopped event ∨ ∃ n, phase = .born n ∧ event = .signal n) {lost : Bool} (hlost : lost = true → Settled w pid)
    {loop : Loop Policy} {resumed : List Pid} (hstop : w.loop.stopped pid event lost = .ok (loop, resumed)) :
    Orderly (w.settled pid lost (.ok (loop, resumed))) := by
  have hlive : phase.isDead = false := by
    rcases hevent with rfl | ⟨n, rfl, -⟩ <;> rfl
  have hfinish (hl : lost = true) (hloop : loop = w.loop) (hres : ∀ r ∈ resumed, r = pid) :
      Orderly (w.settled pid lost (.ok (loop, resumed))) := by
    subst hl hloop
    rw [settled_lost hk hlive hres]
    exact finish_orderly h hk (hlost rfl)
  have hpend : w.loop.pending pid = false := by
    by_contra hp
    obtain ⟨tp, old, hkp, hcase⟩ := h.pending pid (by simpa using hp)
    grind [Phase.isDead]
  have hplain (he : (∃ n, event = .signal n) ∨ ∃ a, event = .seccomp a) :
      ∀ e, phase = .stopped e → (∃ n, e = .signal n) ∨ ∃ a, e = .seccomp a := by grind
  cases event with
  | exec former =>
      obtain rfl : phase = .stopped (.exec former) := by grind
      obtain ⟨⟨tuple, htuple, -⟩, -⟩ := h.exec pid t former hk
      simp only [Loop.stopped] at hstop
      by_cases hl : lost = true
      · rw [if_pos hl, Except.ok.injEq, Prod.mk.injEq] at hstop
        exact hfinish hl hstop.1.symm (by simp [← hstop.2])
      · rw [if_neg hl] at hstop
        obtain ⟨rfl, -, horderly⟩ := execed_orderly h hk htuple hstop
        rwa [Bool.eq_false_iff.mpr hl, settled_run hk hlive]
  | creation child =>
      obtain rfl : phase = .stopped (.creation child) := by grind
      obtain ⟨tuple, htuple, -⟩ := h.creator pid t child hk
      simp only [Loop.stopped, htuple] at hstop
      by_cases hl : lost = true
      · rw [if_pos hl, Except.ok.injEq, Prod.mk.injEq] at hstop
        exact hfinish hl hstop.1.symm (by simp [← hstop.2])
      · rw [if_neg hl] at hstop
        rw [Bool.eq_false_iff.mpr hl]
        exact created_orderly h hk htuple hstop
  | seccomp added =>
      obtain rfl : phase = .stopped (.seccomp added) := by grind
      obtain ⟨tuple, htuple, hbegins⟩ := h.seccomp pid t added hk
      simp only [Loop.stopped, htuple, Except.ok.injEq, Prod.mk.injEq] at hstop
      obtain ⟨hloop, hresumed⟩ := hstop
      have horderly {new : Phase Policy} (hnew : new = .running ∨ new = .dead (Phase.stopped (.seccomp added)).ran) :
          Orderly ((w.put pid ⟨t, new⟩).take loop) :=
        resumed_orderly h hk _ (hplain (.inr ⟨added, rfl⟩)) htuple hbegins hloop.symm hnew hpend
      cases lost with
      | true =>
          rw [settled_lost hk hlive (by simp [← hresumed])]
          exact horderly (.inr rfl)
      | false =>
          obtain rfl : [pid] = resumed := by simpa using hresumed
          rw [settled_run hk hlive]
          exact horderly (.inl rfl)
  | signal number =>
      simp only [Loop.stopped] at hstop
      cases htuple : w.loop.tasks pid with
      | some tuple =>
          simp only [htuple, Except.ok.injEq, Prod.mk.injEq] at hstop
          obtain ⟨rfl, rfl⟩ := hstop
          cases lost with
          | true => exact hfinish rfl rfl (by simp)
          | false =>
              have hbegins : t <+: tuple := by
                have hknown : Known w pid t := known_of_registered h hk hevent htuple
                obtain ⟨tuple', htuple', hbegins⟩ := hknown
                rwa [Option.some.inj (htuple.symm.trans htuple')]
              rw [settled_run hk hlive]
              refine resumed_orderly h hk [] (hplain (.inl ⟨number, rfl⟩)) htuple hbegins ?_ (.inl rfl) hpend
              rw [List.append_nil, ← htuple, Function.update_eq_self]
      | none =>
          simp only [htuple] at hstop
          obtain ⟨n, rfl, -⟩ : ∃ n, phase = .born n ∧ Event.signal number = .signal n := by
            refine hevent.resolve_left ?_
            rintro rfl
            obtain ⟨tuple, hsome, -⟩ := h.signal pid t number hk
            rw [htuple] at hsome
            cases hsome
          split at hstop
          · rw [Except.ok.injEq, Prod.mk.injEq] at hstop
            obtain ⟨hloop, rfl⟩ := hstop
            have horderly := held_orderly h hk htuple hloop.symm
            cases lost with
            | false => rwa [settled_held hk hlive]
            | true =>
                rw [settled_lost hk hlive (by simp)]
                have hheld' : ((w.put pid ⟨t, .held⟩).take loop).kernel pid = some ⟨t, .held⟩ := by
                  rw [take_kernel, put_kernel, if_pos rfl]
                have hsettled : Settled ((w.put pid ⟨t, .held⟩).take loop) pid := fun tc c hc => by
                  rw [hheld'] at hc
                  cases hc
                have hdead := finish_orderly horderly hheld' hsettled
                simpa [World.put, World.take, Phase.ran] using hdead
          · cases hstop

/-- One move that meets the condition. -/
theorem moves_orderly (h : Orderly w) {move : Move Policy} (hclear : Clear w move) (hmove : Moves leader w move w') :
    w'.ended = true ∨ Orderly w' := by
  cases hmove with
  | @spawn creator child number k hk hphase hfree =>
      obtain ⟨policies, phase⟩ := k
      obtain rfl : phase = .running := hphase
      exact .inr (spawn_orderly h hk hfree hclear.1 hclear.2.1 hclear.2.2)
  | @signal pid number k hk hphase =>
      obtain ⟨policies, phase⟩ := k
      obtain rfl : phase = .running := hphase
      exact .inr (stop_orderly h hk (.inl ⟨number, rfl⟩))
  | @seccomp pid added k hk hphase =>
      obtain ⟨policies, phase⟩ := k
      obtain rfl : phase = .running := hphase
      exact .inr (stop_orderly h hk (.inr ⟨added, rfl⟩))
  | @exec thread pid k old hk hphase hold hran =>
      obtain ⟨policies, phase⟩ := k
      obtain rfl : phase = .running := hphase
      exact .inr (exec_orderly h hk hold hran hclear)
  | @finish pid k hk _ => exact .inr (finish_orderly h hk hclear)
  | @report pid lost k w' hover hk hreported =>
      obtain ⟨policies, phase⟩ := k
      have hlost : lost = true → Settled w pid := by
        rintro rfl
        exact hclear
      have hstopped {event : Event Policy} (hevent : phase = .stopped event ∨ ∃ n, phase = .born n ∧ event = .signal n)
          (heq : w.settled pid lost (w.loop.stopped pid event lost) = w') : w'.ended = true ∨ Orderly w' := by
        subst heq
        cases hstop : w.loop.stopped pid event lost with
        | error message => exact .inl rfl
        | ok result => exact .inr (stopped_orderly h hk hevent hlost hstop)
      cases phase with
      | born number => exact hstopped (.inr ⟨number, rfl, rfl⟩) (Option.some.inj hreported)
      | held => cases hreported
      | running => cases hreported
      | stopped event => exact hstopped (.inl rfl) (Option.some.inj hreported)
      | dead ran =>
          obtain rfl := Option.some.inj hreported
          by_cases hleader : pid = leader
          · exact .inl (by simp [hleader])
          · have horderly := exited_orderly h hk
            refine .inr ?_
            simpa [World.free, World.take, hover, hleader] using horderly

theorem start_orderly {policy : Policy} (hstart : (supervisor leader policy).start w) : Orderly w := by
  obtain rfl := (show w = _ from hstart)
  have hself : [policy] <+: [policy] := List.prefix_refl _
  constructor <;> grind [Known, Function.update_apply]

/-! ### What is kept -/

/-- What the supervisor keeps over one move. -/
structure Lawful (w : World Policy) (move : Move Policy) (w' : World Policy) : Prop where
  /-- What is resumed has a tuple, which extends the one that its creator had. -/
  resumed : ∀ p t, w'.kernel p = some ⟨t, .running⟩ → w.kernel p ≠ some ⟨t, .running⟩ → Known w' p t
  /-- A tuple changes by appending, or by an exec. -/
  grown : ∀ p tuple tuple', w.loop.tasks p = some tuple → w'.loop.tasks p = some tuple' → tuple <+: tuple' ∨
    ∃ t former, move = .report p false ∧ w.kernel p = some ⟨t, .stopped (.exec former)⟩
  /-- The task that is left of an exec keeps the tuple of the thread that called it. -/
  execed : ∀ p t former, move = .report p false → w.kernel p = some ⟨t, .stopped (.exec former)⟩ → w'.ended = false ∧
    ∃ tuple, w.loop.tasks former = some tuple ∧ w'.loop.tasks p = some tuple
  /-- A creation event registers the child with the tuple of its creator, or the child has terminated. -/
  created : ∀ p t child, move = .report p false → w.kernel p = some ⟨t, .stopped (.creation child)⟩ → w'.ended = false ∧
    ((∃ tuple, w.loop.tasks p = some tuple ∧ w'.loop.tasks child = some tuple) ∨ ∀ tc phase, w'.kernel child = some ⟨tc, phase⟩ → phase.isDead = true)

/-- No live task is stopped, where the kernel has nothing to report. -/
def Quiet (w : World Policy) : Prop := w.ended = false → (∀ p t phase, w.kernel p = some ⟨t, phase⟩ → phase = .running ∨ phase = .held) →
  ∀ p t phase, w.kernel p = some ⟨t, phase⟩ → phase = .running

theorem Orderly.quiet (h : Orderly w) : Quiet w := by
  intro _ hnothing p t phase hp
  rcases hnothing p t phase hp with hrun | rfl
  · exact hrun
  · obtain ⟨q, tq, hq⟩ := (h.held p t hp).2
    rcases hnothing q tq _ hq with hq' | hq' <;> cases hq'

theorem ended_stays {move : Move Policy} (hmove : Moves leader w move w') (hover : w.ended = true) : w'.ended = true := by
  cases hmove with
  | spawn _ _ _ => exact hover
  | signal _ _ => exact hover
  | seccomp _ _ => exact hover
  | exec _ _ _ _ => exact hover
  | finish _ _ => exact hover
  | report hfalse _ _ =>
      rw [hover] at hfalse
      cases hfalse

/-- Only the loop resumes a task, and it goes on then. -/
theorem new_running {move : Move Policy} (hmove : Moves leader w move w') {p : Pid} {t : List Policy} (hnew : w'.kernel p = some ⟨t, .running⟩)
    (hold : w.kernel p ≠ some ⟨t, .running⟩) : w.ended = false ∧ w'.ended = false := by
  cases hmove with
  | spawn hk hphase hfree => grind [put_kernel]
  | signal hk hphase => grind [put_kernel]
  | seccomp hk hphase => grind [put_kernel]
  | exec hk hphase hother hran => grind [put_kernel, free_kernel]
  | finish hk hlive => grind [put_kernel]
  | @report pid lost k w' hover hk hreported =>
      refine ⟨hover, ?_⟩
      have hstopped {event : Event Policy} (heq : w.settled pid lost (w.loop.stopped pid event lost) = w') : w'.ended = false := by
        subst heq
        cases hstop : w.loop.stopped pid event lost with
        | error message =>
            rw [hstop] at hnew
            exact absurd hnew hold
        | ok result => exact hover
      cases hphase : k.phase with
      | born number => exact hstopped (Option.some.inj (hphase ▸ hreported))
      | held => simp [World.reported, hphase] at hreported
      | running => simp [World.reported, hphase] at hreported
      | stopped event => exact hstopped (Option.some.inj (hphase ▸ hreported))
      | dead ran =>
          simp only [hphase, World.reported, Option.some.injEq] at hreported
          subst hreported
          simp only [Function.update_apply] at hnew
          split at hnew
          · cases hnew
          · exact absurd hnew hold

/-- What a stop makes of a tuple. -/
theorem stopped_grown {loop loop' : Loop Policy} {pid : Pid} {event : Event Policy} {lost : Bool} {resumed : List Pid}
    (hstop : loop.stopped pid event lost = .ok (loop', resumed)) {p : Pid} {tuple tuple' : List Policy} (hbefore : loop.tasks p = some tuple)
    (hafter : loop'.tasks p = some tuple') : tuple <+: tuple' ∨ p = pid ∧ lost = false ∧ ∃ former, event = .exec former := by
  have hsame (heq : loop'.tasks p = loop.tasks p) : tuple <+: tuple' := by
    rw [heq, hbefore] at hafter
    exact Option.some.inj hafter ▸ List.prefix_refl tuple
  cases event with
  | exec former =>
      simp only [Loop.stopped] at hstop
      cases lost with
      | true =>
          rw [if_pos rfl, Except.ok.injEq, Prod.mk.injEq] at hstop
          exact .inl (hsame (by rw [hstop.1]))
      | false =>
          by_cases hp : p = pid
          · exact .inr ⟨hp, rfl, former, rfl⟩
          · simp only [Bool.false_eq_true, if_false, Loop.execed] at hstop
            split at hstop
            · cases hstop
            · next policies _ =>
              rw [Except.ok.injEq, Prod.mk.injEq] at hstop
              have htasks : loop'.tasks p = if former = pid then loop.tasks p else if p = former then none else loop.tasks p := by
                rw [← hstop.1]
                split <;> simp [Function.update_apply, hp]
              refine .inl (hsame ?_)
              grind
  | creation child =>
      simp only [Loop.stopped] at hstop
      split at hstop
      · cases hstop
      · refine .inl (hsame ?_)
        split at hstop
        · grind
        · unfold Loop.created at hstop
          split at hstop
          · grind
          · split at hstop
            · cases hstop
            · next hnone =>
              have hne : p ≠ child := by
                rintro rfl
                simp [hbefore] at hnone
              split at hstop
              · rw [Except.ok.injEq, Prod.mk.injEq] at hstop
                rw [← hstop.1]
                exact Function.update_of_ne hne _ _
              · rw [Except.ok.injEq, Prod.mk.injEq] at hstop
                rw [← hstop.1]
                exact Function.update_of_ne hne _ _
  | seccomp added =>
      simp only [Loop.stopped] at hstop
      split at hstop
      · cases hstop
      · next tuple'' heq =>
        rw [Except.ok.injEq, Prod.mk.injEq] at hstop
        by_cases hp : p = pid
        · subst hp
          rw [← hstop.1] at hafter
          simp only [Function.update_self] at hafter
          rw [heq, Option.some.injEq] at hbefore
          rw [Option.some.injEq] at hafter
          rw [← hafter, hbefore]
          exact .inl (List.prefix_append tuple added.toList)
        · exact .inl (hsame (by rw [← hstop.1]; exact Function.update_of_ne hp _ _))
  | signal number =>
      simp only [Loop.stopped] at hstop
      split at hstop
      · split at hstop
        · rw [Except.ok.injEq, Prod.mk.injEq] at hstop
          exact .inl (hsame (by rw [← hstop.1]))
        · cases hstop
      · rw [Except.ok.injEq, Prod.mk.injEq] at hstop
        exact .inl (hsame (by rw [hstop.1]))

variable {move : Move Policy}

theorem moves_grown (hmove : Moves leader w move w') {p : Pid} {tuple tuple' : List Policy} (hbefore : w.loop.tasks p = some tuple)
    (hafter : w'.loop.tasks p = some tuple') : tuple <+: tuple' ∨
      ∃ t former, move = .report p false ∧ w.kernel p = some ⟨t, .stopped (.exec former)⟩ := by
  have hsame (heq : w'.loop = w.loop) : tuple <+: tuple' := by
    rw [heq, hbefore] at hafter
    exact Option.some.inj hafter ▸ List.prefix_refl tuple
  cases hmove with
  | spawn hk hphase hfree => exact .inl (hsame rfl)
  | signal hk hphase => exact .inl (hsame rfl)
  | seccomp hk hphase => exact .inl (hsame rfl)
  | exec hk hphase hother hran => exact .inl (hsame rfl)
  | finish hk hlive => exact .inl (hsame rfl)
  | @report pid lost k w' hover hk hreported =>
      obtain ⟨policies, phase⟩ := k
      have hstopped {event : Event Policy} (heq : w.settled pid lost (w.loop.stopped pid event lost) = w') :
          tuple <+: tuple' ∨ p = pid ∧ lost = false ∧ ∃ former, event = .exec former := by
        subst heq
        cases hstop : w.loop.stopped pid event lost with
        | error message =>
            rw [hstop] at hafter
            obtain rfl := Option.some.inj (hbefore.symm.trans hafter)
            exact .inl (List.prefix_refl tuple)
        | ok result =>
            rw [hstop] at hafter
            exact stopped_grown hstop hbefore hafter
      cases phase with
      | born number =>
          rcases hstopped (Option.some.inj hreported) with hgrown | ⟨-, -, former, hevent⟩
          · exact .inl hgrown
          · cases hevent
      | held => cases hreported
      | running => cases hreported
      | stopped event =>
          rcases hstopped (Option.some.inj hreported) with hgrown | ⟨rfl, rfl, former, rfl⟩
          · exact .inl hgrown
          · exact .inr ⟨policies, former, rfl, hk⟩
      | dead ran =>
          obtain rfl := Option.some.inj hreported
          simp only [Loop.exited, Function.update_apply] at hafter
          split at hafter
          · cases hafter
          · rw [hbefore, Option.some.injEq] at hafter
            exact .inl (hafter ▸ List.prefix_refl tuple)

/-- A creation event does not fail, and leaves a child that is registered or has terminated. -/
theorem created_law (hover : w.ended = false) (h : Orderly w) {p : Pid} {t tuple : List Policy} {child : Pid}
    (hk : w.kernel p = some ⟨t, .stopped (.creation child)⟩) (htuple : w.loop.tasks p = some tuple) :
    (w.settled p false (w.loop.created p tuple child)).ended = false ∧
      ((∃ tuple', w.loop.tasks p = some tuple' ∧ (w.settled p false (w.loop.created p tuple child)).loop.tasks child = some tuple') ∨
        ∀ tc phase, (w.settled p false (w.loop.created p tuple child)).kernel child = some ⟨tc, phase⟩ → phase.isDead = true) := by
  obtain ⟨hnone, hyoung⟩ := h.child p t child hk
  unfold Loop.created
  split
  · next hexited =>
    refine ⟨hover, .inr fun tc phase hc => ?_⟩
    obtain ⟨⟨tk, old⟩, hold, heq⟩ := Option.map_eq_some_iff.mp hc
    have hdead : old.isDead = true := by
      by_contra hlive
      have hfalse := ((hyoung tk old hold).2 (by simpa using hlive)).1
      rw [hexited] at hfalse
      cases hfalse
    rw [Task.settle, if_pos hdead] at heq
    rwa [← (Task.mk.inj heq).2]
  · rw [if_neg (by simp [hnone])]
    split
    · exact ⟨hover, .inl ⟨tuple, htuple, Function.update_self _ _ _⟩⟩
    · exact ⟨hover, .inl ⟨tuple, htuple, Function.update_self _ _ _⟩⟩

/-- Over a clear move from what is in order. -/
theorem moves_lawful (h : w.ended = true ∨ Orderly w) (hclear : Clear w move) (hmove : Moves leader w move w') : Lawful w move w' where
  resumed p t hnew hold := by
    obtain ⟨hover, hover'⟩ := new_running hmove hnew hold
    rcases h with hdone | horderly
    · rw [hover] at hdone
      cases hdone
    · rcases moves_orderly horderly hclear hmove with hdone | horderly'
      · rw [hover'] at hdone
        cases hdone
      · exact horderly'.running p t hnew
  grown p tuple tuple' := moves_grown hmove
  execed p t former hreport hk := by
    subst hreport
    cases hmove with
    | @report pid lost k w' hover hk' hreported =>
        have horderly := h.resolve_left (by simp [hover])
        rw [hk, Option.some.injEq] at hk'
        subst hk'
        obtain ⟨⟨tuple, htuple, -⟩, -⟩ := horderly.exec p t former hk
        obtain rfl := Option.some.inj hreported
        have hstop : w.loop.stopped p (.exec former) false = w.loop.execed p former := rfl
        rw [hstop]
        cases hexeced : w.loop.execed p former with
        | error message => simp [Loop.execed, htuple] at hexeced
        | ok result =>
            obtain ⟨-, htasks, -⟩ := execed_orderly horderly hk htuple hexeced
            exact ⟨hover, tuple, htuple, htasks⟩
  created p t child hreport hk := by
    subst hreport
    cases hmove with
    | @report pid lost k w' hover hk' hreported =>
        have horderly := h.resolve_left (by simp [hover])
        rw [hk, Option.some.injEq] at hk'
        subst hk'
        obtain ⟨tuple, htuple, -⟩ := horderly.creator p t child hk
        obtain rfl := Option.some.inj hreported
        have hstop : w.loop.stopped p (.creation child) false = w.loop.created p tuple child := by simp [Loop.stopped, htuple]
        rw [hstop]
        exact created_law hover horderly hk htuple

/-- Over every run whose moves are clear, each move is lawful, and no live task is left stopped. -/
theorem supervised {policy : Policy} {trace : List (Taken (World Policy) (Move Policy))} (hrun : System.Run (supervisor leader policy) trace w)
    (hclear : Meets (fun w move _ => Clear w move) trace) : (∀ e ∈ trace, Lawful e.before e.label e.after) ∧ Quiet w := by
  have hstart : ∀ s, (supervisor leader policy).start s → s.ended = true ∨ Orderly s := fun s hs => .inr (start_orderly hs)
  have hkeep : ∀ s m s', (s.ended = true ∨ Orderly s) → Clear s m → (supervisor leader policy).step s m s' → s'.ended = true ∨ Orderly s' := by
    intro s m s' h hm hstep
    rcases h with hover | h
    · exact .inl (ended_stays hstep hover)
    · exact moves_orderly h hm hstep
  refine ⟨fun e he => ?_, ?_⟩
  · obtain ⟨hbefore, hstep⟩ := hrun.before_of_meets (I := fun s => s.ended = true ∨ Orderly s) hstart hkeep hclear he
    exact moves_lawful hbefore (hclear e he) hstep
  · rcases hrun.invariant_of_meets (I := fun s => s.ended = true ∨ Orderly s) hstart hkeep hclear with hover | horderly
    · intro hfalse
      rw [hover] at hfalse
      cases hfalse
    · exact horderly.quiet

/-! ### Two runs -/

/-- The world after a move that may happen. -/
def World.next (leader : Pid) (w : World Policy) : Move Policy → Option (World Policy)
  | .spawn creator child number =>
      match w.kernel creator, w.kernel child with
      | some ⟨t, .running⟩, none =>
          some ((w.put creator ⟨t, .stopped (.creation child)⟩).put child ⟨(w.loop.tasks creator).getD [], .born number⟩)
      | _, _ => none
  | .finish pid =>
      match w.kernel pid with
      | some ⟨t, phase⟩ => if phase.isDead = true then none else some (w.put pid ⟨t, .dead phase.ran⟩)
      | none => none
  | .report pid lost =>
      match w.kernel pid with
      | some k => if w.ended = true then none else w.reported leader pid lost k.phase
      | none => none
  | _ => none

theorem next_moves (h : w.next leader move = some w') : Moves leader w move w' := by
  cases move with
  | spawn creator child number =>
      simp only [World.next] at h
      split at h
      · next t hk hfree =>
        obtain rfl := Option.some.inj h
        exact .spawn hk rfl hfree
      · cases h
  | stop pid event => cases h
  | exec thread pid => cases h
  | finish pid =>
      simp only [World.next] at h
      split at h
      · next t phase hk =>
        split at h
        · cases h
        · next hlive =>
          obtain rfl := Option.some.inj h
          exact .finish hk (by simpa using hlive)
      · cases h
  | report pid lost =>
      simp only [World.next] at h
      split at h
      · next k hk =>
        split at h
        · cases h
        · next hover => exact .report (by simpa using hover) hk h
      · cases h

/-- The transitions of some moves. -/
def World.follow (leader : Pid) (w : World Policy) : List (Move Policy) → List (Taken (World Policy) (Move Policy)) × World Policy
  | [] => ([], w)
  | move :: rest =>
      match w.next leader move with
      | some w' =>
          let found := w'.follow leader rest
          (⟨w, move, w'⟩ :: found.1, found.2)
      | none => ([], w)

theorem follow_run {policy : Policy} {trace : List (Taken (World Policy) (Move Policy))} (h : System.Run (supervisor leader policy) trace w)
    (moves : List (Move Policy)) : System.Run (supervisor leader policy) (trace ++ (w.follow leader moves).1) (w.follow leader moves).2 := by
  induction moves generalizing w trace with
  | nil => simpa [World.follow] using h
  | cons move rest ih =>
      simp only [World.follow]
      cases hnext : w.next leader move with
      | none => simpa using h
      | some w' =>
          have hrest := ih (h.step (next_moves hnext))
          simpa using hrest

/-- The leader with one policy, before it does anything. -/
def launched : World Nat where
  kernel := Function.update (fun _ => none) 1 (some ⟨[7], .running⟩)
  loop := { tasks := Function.update (fun _ => none) 1 (some [7]) }

/-- A child stops for the first time before the creation event is taken. -/
def early : List (Move Nat) := [.spawn 1 2 sigstop, .report 2 false, .report 1 false]

/-- A child and its creator are killed before the creation event, and the id of the child is given again. -/
def reused : List (Move Nat) :=
  [.spawn 1 3 sigstop, .report 1 false, .report 3 false, .spawn 3 2 sigstop, .finish 2, .report 2 false, .finish 3, .report 3 false,
    .spawn 1 2 sigstop, .report 1 false, .report 2 false]

theorem follow_clear (hmove : Clear w move) {rest : List (Move Policy)}
    (hrest : ∀ w', w.next leader move = some w' → Meets (fun w move _ => Clear w move) (w'.follow leader rest).1) :
    Meets (fun w move _ => Clear w move) (w.follow leader (move :: rest)).1 := by
  simp only [World.follow]
  cases hnext : w.next leader move with
  | none => exact fun _ he => absurd he List.not_mem_nil
  | some w' =>
      intro e he
      rcases List.mem_cons.mp he with rfl | hlater
      · exact hmove
      · exact hrest w' hnext e hlater

theorem early_clear : Meets (fun w move _ => Clear w move) (launched.follow 1 early).1 := by
  have hfirst : Clear launched (.spawn 1 2 sigstop) := by
    refine ⟨rfl, rfl, ?_⟩
    rintro ⟨q, t, hq⟩
    simp only [launched, Function.update_apply] at hq
    split at hq
    · cases hq
    · cases hq
  have hreport (w : World Nat) (pid : Pid) : Clear w (.report pid false) := trivial
  refine follow_clear hfirst fun w _ => ?_
  refine follow_clear (hreport w 2) fun w' _ => ?_
  refine follow_clear (hreport w' 1) fun _ _ => ?_
  exact fun _ he => absurd he List.not_mem_nil

theorem launched_run (moves : List (Move Nat)) : System.Run (supervisor 1 7) (launched.follow 1 moves).1 (launched.follow 1 moves).2 :=
  follow_run (.start rfl) moves

theorem supervised_early : (launched.follow 1 early).1.length = 3 ∧
    (∀ e ∈ (launched.follow 1 early).1, Lawful e.before e.label e.after) ∧ Quiet (launched.follow 1 early).2 :=
  ⟨by decide +kernel, supervised (launched_run early) early_clear⟩

/-- The creation event of the new child is taken for that of the dead one, and it stays in its first stop. -/
theorem reused_forgotten : ¬ ∀ (trace : List (Taken (World Nat) (Move Nat))) (w : World Nat),
    System.Run (supervisor 1 7) trace w → Quiet w := by
  intro hall
  have hquiet := hall _ _ (launched_run reused)
  have hheld : ((launched.follow 1 reused).2.kernel 2) = some ⟨[7], .held⟩ := rfl
  have hnothing : ∀ p t phase, (launched.follow 1 reused).2.kernel p = some ⟨t, phase⟩ → phase = .running ∨ phase = .held := by
    intro p t phase hp
    match p, hp with
    | 0, hp => cases hp
    | 1, hp =>
        cases hp
        exact .inl rfl
    | 2, hp =>
        cases hp
        exact .inr rfl
    | 3, hp => cases hp
    | n + 4, hp => cases hp
  cases hquiet rfl hnothing 2 [7] .held hheld

end AutoAgents.Tracing
