import AutoAgents.StoreRows

/-! The operation ledger over all runs of the store: an effect is dispatched once for its ordinal, an
unknown outcome fences the whole workflow, and a receipt is settled once and consumed in order. -/

namespace AutoAgents

open Base Base.Table

/-! ### The ordinals of `Engine.effect` -/

namespace DB

/-- The operations of a work item of one kind. -/
def operationsOf (db : DB) (work : String) (kind : Kind) : List Operation :=
  db.operations.rows.filter fun op => op.work == work && op.kind == kind

/-- `max(ordinals.get(kind, 0), 1 + max(consumed, default=-1))`. -/
def effectOrdinal (db : DB) (work : Work) (kind : Kind) : Nat :=
  max ((work.context.ordinals.lookup kind).getD 0)
    ((((db.operationsOf work.id kind).filter (·.consumed)).map (·.ordinal + 1)).foldr max 0)

/-- The operations of one work item and kind are numbered `0..n`, each number once, and every one but
possibly the last is consumed. -/
def GapFree (db : DB) (work : String) (kind : Kind) : Prop :=
  ∃ count, (∀ op ∈ db.operationsOf work kind, op.ordinal < count) ∧
    (∀ ordinal < count, ∃ op ∈ db.operationsOf work kind, op.ordinal = ordinal ∧
      (∀ op' ∈ db.operationsOf work kind, op'.ordinal = ordinal → op' = op) ∧
      (ordinal + 1 < count → op.consumed = true))

variable {db db' : DB}

theorem mem_operationsOf {work : String} {kind : Kind} {op : Operation} :
    op ∈ db.operationsOf work kind ↔ op ∈ db.operations.rows ∧ op.work = work ∧ op.kind = kind := by
  simp only [operationsOf, List.mem_filter, Bool.and_eq_true, beq_iff_eq]

/-- What lies below the ordinal an effect chooses: a consumed operation carries the number before it. -/
theorem effectOrdinal_pred {work : Work} {kind : Kind} {ordinal : Nat}
    (hordinals : work.context.ordinals = []) (h : ordinal + 1 = db.effectOrdinal work kind) :
    ∃ op ∈ db.operations.rows, op.work = work.id ∧ op.kind = kind ∧ op.ordinal = ordinal ∧
      op.consumed = true := by
  rw [effectOrdinal, hordinals, List.lookup_nil, Option.getD_none, Nat.zero_max] at h
  have hmem : ∀ l : List Nat, l.foldr max 0 ≠ 0 → l.foldr max 0 ∈ l := by
    intro l
    induction l with
    | nil => exact fun hne => absurd rfl hne
    | cons n l ih =>
        intro hne
        rw [List.foldr_cons] at hne ⊢
        rcases max_choice n (l.foldr max 0) with heq | heq
        · rw [heq]
          exact List.mem_cons_self
        · rw [heq] at hne ⊢
          exact List.mem_cons_of_mem _ (ih hne)
  obtain ⟨op, hop, hordinal⟩ := List.mem_map.mp (hmem _ (by rw [← h]; exact Nat.succ_ne_zero _))
  obtain ⟨hmine, hconsumed⟩ := List.mem_filter.mp hop
  obtain ⟨hrow, hwork, hkind⟩ := mem_operationsOf.mp hmine
  exact ⟨op, hrow, hwork, hkind, by omega, hconsumed⟩

/-! ### The invariants of one database -/

/-- A row carries the identity of its work item, kind and ordinal. -/
def Named (db : DB) : Prop :=
  ∀ op ∈ db.operations.rows, op.id = .uuid5 op.work op.kind op.ordinal

/-- Only a settled operation is consumed. -/
def Receipted (db : DB) : Prop :=
  ∀ op ∈ db.operations.rows, op.consumed = true → op.state.settled = true

/-- Before every operation, all smaller ordinals of its kind are consumed. -/
def Ordered (db : DB) : Prop :=
  ∀ op ∈ db.operations.rows, ∀ ordinal < op.ordinal, ∃ earlier ∈ db.operations.rows,
    earlier.work = op.work ∧ earlier.kind = op.kind ∧ earlier.ordinal = ordinal ∧
      earlier.consumed = true

theorem Named.find (h : Named db) {op : Operation} (hop : op ∈ db.operations.rows) :
    db.operations.find (.uuid5 op.work op.kind op.ordinal) = some op := by
  rw [← h op hop]
  exact find_of_mem hop

theorem Named.unique (h : Named db) {op op' : Operation} (hop : op ∈ db.operations.rows)
    (hop' : op' ∈ db.operations.rows) (hwork : op'.work = op.work) (hkind : op'.kind = op.kind)
    (hordinal : op'.ordinal = op.ordinal) : op' = op := by
  have hfind := h.find hop'
  rw [hwork, hkind, hordinal, h.find hop] at hfind
  exact (Option.some.inj hfind).symm

theorem gapFree_of_ordered (hnamed : Named db) (hordered : Ordered db) (work : String) (kind : Kind) :
    db.GapFree work kind := by
  -- The number of operations is one above the greatest ordinal.
  have hbound : ∀ ops : List Operation, (∀ op ∈ ops, op ∈ db.operationsOf work kind) →
      ∃ count, (∀ op ∈ ops, op.ordinal < count) ∧
        (count = 0 ∨ ∃ op ∈ db.operationsOf work kind, op.ordinal + 1 = count) := by
    intro ops
    induction ops with
    | nil => exact fun _ => ⟨0, fun _ h => absurd h List.not_mem_nil, Or.inl rfl⟩
    | cons op ops ih =>
        intro hsub
        obtain ⟨count, hlt, htop⟩ := ih fun op hop => hsub op (List.mem_cons_of_mem _ hop)
        by_cases hle : op.ordinal < count
        · refine ⟨count, fun op' hop' => ?_, htop⟩
          rcases List.mem_cons.mp hop' with rfl | hmem
          · exact hle
          · exact hlt op' hmem
        · refine ⟨op.ordinal + 1, fun op' hop' => ?_, Or.inr ⟨op, hsub op List.mem_cons_self, rfl⟩⟩
          rcases List.mem_cons.mp hop' with rfl | hmem
          · exact Nat.lt_succ_self _
          · have := hlt op' hmem
            omega
  obtain ⟨count, hlt, htop⟩ := hbound _ fun _ h => h
  refine ⟨count, hlt, fun ordinal hordinal => ?_⟩
  obtain rfl | ⟨last, hlast, rfl⟩ := htop
  · exact absurd hordinal (Nat.not_lt_zero _)
  obtain ⟨hrow, hwork, hkind⟩ := mem_operationsOf.mp hlast
  have hexists : ∃ op ∈ db.operations.rows, op.work = work ∧ op.kind = kind ∧ op.ordinal = ordinal ∧
      (ordinal + 1 < last.ordinal + 1 → op.consumed = true) := by
    by_cases heq : ordinal = last.ordinal
    · exact ⟨last, hrow, hwork, hkind, heq.symm, by omega⟩
    · obtain ⟨op, hop, hw, hk, ho, hc⟩ := hordered last hrow ordinal (by omega)
      exact ⟨op, hop, hw.trans hwork, hk.trans hkind, ho, fun _ => hc⟩
  obtain ⟨op, hop, hw, hk, ho, hc⟩ := hexists
  refine ⟨op, mem_operationsOf.mpr ⟨hop, hw, hk⟩, ho, fun op' hop' ho' => ?_, hc⟩
  obtain ⟨hrow', hw', hk'⟩ := mem_operationsOf.mp hop'
  exact hnamed.unique hop hrow' (hw'.trans hw.symm) (hk'.trans hk.symm) (ho'.trans ho.symm)

/-! ### One call -/

theorem mem_charged {work : Work} {op : Operation} {hfresh : db.operations.find op.id = none}
    {row : Operation} (h : row ∈ (db.charged work op hfresh).operations.rows) :
    row ∈ db.operations.rows ∨ row = op := by
  rcases (charged_operations work op hfresh).mem h with ⟨old, hold, -, rfl⟩ | rfl
  · exact Or.inl hold
  · exact Or.inr rfl

theorem mem_charged_of_mem {work : Work} {op : Operation} {hfresh : db.operations.find op.id = none}
    {row : Operation} (h : row ∈ db.operations.rows) :
    row ∈ (db.charged work op hfresh).operations.rows := List.mem_append_left _ h

end DB

theorem Call.Moves.settled {call : Call} {op op' : Operation} (h : call.Moves op op')
    (hsettled : op.consumed = true → op.state.settled = true) (hconsumed : op'.consumed = true) :
    op'.state.settled = true := by
  cases call with
  | settle identity result state =>
      rcases h with rfl | ⟨-, hopen, -, rfl⟩
      · exact hsettled hconsumed
      · have := hsettled hconsumed
        simp only [OperationState.settled_eq_not_unresolved, hopen, Bool.not_true,
          Bool.false_eq_true] at this
  | deriveReceipt identity result =>
      rcases h with rfl | ⟨-, -, -, rfl⟩
      · exact hsettled hconsumed
      · exact hsettled hconsumed
  | orphanCalls =>
      obtain rfl := h
      unfold DB.orphaned at hconsumed ⊢
      split_ifs at hconsumed ⊢ with hstate hmodel hlocal
      · exact hsettled hconsumed
      all_goals
        first
        | rfl
        | exact absurd (hsettled hconsumed) (by
            rw [ne_eq, not_not] at hstate
            rw [hstate]
            decide)
  | collect longResult longInputs =>
      rcases h with rfl | ⟨result, inputs, -, rfl⟩
      · exact hsettled hconsumed
      · exact hsettled hconsumed
  | _ =>
      rcases h with rfl | ⟨hstate, rfl⟩
      · exact hsettled hconsumed
      · exact hstate

/-- An operation is settled by `settle` alone, or by a restart when it may be repeated. -/
theorem Call.Moves.leaves {call : Call} {op op' : Operation} (h : call.Moves op op')
    (hopen : op.state.unresolved = true) (hleft : op'.state.unresolved = false) :
    (∃ result state, call = .settle op.id result state) ∨
      (call = .orphanCalls ∧ op.repeatable = true) := by
  have hsame : op'.state ≠ op.state := by
    intro heq
    rw [heq, hopen] at hleft
    cases hleft
  cases call with
  | settle identity result state =>
      rcases h with rfl | ⟨rfl, -, -, -⟩
      · exact absurd rfl hsame
      · exact Or.inl ⟨result, state, rfl⟩
  | deriveReceipt identity result =>
      rcases h with rfl | ⟨-, -, -, rfl⟩ <;> exact absurd rfl hsame
  | orphanCalls =>
      obtain rfl := h
      refine Or.inr ⟨rfl, ?_⟩
      unfold DB.orphaned at hleft
      split_ifs at hleft with hstate hmodel hlocal
      · rw [hopen] at hleft
        cases hleft
      · cases hleft
      · cases hleft
      · rw [not_or] at hlocal
        simp [Operation.repeatable, hmodel, hlocal]
  | collect longResult longInputs =>
      rcases h with rfl | ⟨result, inputs, -, rfl⟩ <;> exact absurd rfl hsame
  | _ => rcases h with rfl | ⟨hstate, rfl⟩ <;> exact absurd rfl hsame

namespace DB

variable {db db' : DB}

theorem Named.exec (h : Named db) {call : Call} (hexec : call.exec db = .ok db') : Named db' := by
  intro op hop
  rcases Call.exec_ok hexec with ⟨work, kind, ordinal, inputs, model, provider, -, hnew⟩ | hwrote
  · obtain ⟨hfresh, rfl⟩ := hnew.writes
    rcases mem_charged hop with hold | rfl
    · exact h op hold
    · rfl
  · rcases hwrote.operations.mem hop with ⟨old, hold, -, hmove⟩ | hfalse
    · have hkept := hmove.later.kept
      rw [hkept.id, hkept.work, hkept.kind, hkept.ordinal]
      exact h old hold
    · exact hfalse.elim

theorem Receipted.exec (h : Receipted db) {call : Call} (hexec : call.exec db = .ok db') :
    Receipted db' := by
  intro op hop hconsumed
  rcases Call.exec_ok hexec with ⟨work, kind, ordinal, inputs, model, provider, -, hnew⟩ | hwrote
  · obtain ⟨hfresh, rfl⟩ := hnew.writes
    rcases mem_charged hop with hold | rfl
    · exact h op hold hconsumed
    · cases hconsumed
  · rcases hwrote.operations.mem hop with ⟨old, hold, -, hmove⟩ | hfalse
    · exact hmove.settled (h old hold) hconsumed
    · exact hfalse.elim

/-- A consumed operation of one moment is there, consumed, at every later one. -/
theorem Advanced.consumed (h : Advanced db db') {op : Operation} (hop : op ∈ db.operations.rows)
    (hconsumed : op.consumed = true) :
    ∃ op' ∈ db'.operations.rows, op'.work = op.work ∧ op'.kind = op.kind ∧
      op'.ordinal = op.ordinal ∧ op'.consumed = true := by
  obtain ⟨op', hfind, hlater⟩ := h.operations _ _ (find_of_mem hop)
  exact ⟨op', (find_some hfind).1, hlater.kept.work, hlater.kept.kind, hlater.kept.ordinal,
    hlater.consumed hconsumed⟩

theorem Ordered.wrote {M : Operation → Operation → Prop} (h : Ordered db) (hwrote : Wrote M db db')
    (hM : ∀ op op', M op op' → Operation.Later op op') : Ordered db' := by
  intro op hop ordinal hlt
  rcases hwrote.operations.mem hop with ⟨old, hold, -, hmove⟩ | hfalse
  · have hkept := (hM _ _ hmove).kept
    rw [hkept.ordinal] at hlt
    obtain ⟨earlier, hearlier, hwork, hkind, hordinal, hconsumed⟩ := h old hold ordinal hlt
    obtain ⟨row, hrow, hw, hk, ho, hc⟩ := (hwrote.advanced hM).consumed hearlier hconsumed
    exact ⟨row, hrow, hw.trans (hwork.trans hkept.work.symm), hk.trans (hkind.trans hkept.kind.symm),
      ho.trans hordinal, hc⟩
  · exact hfalse.elim

/-- The ordinal was chosen from what some earlier moment showed, so all below it are consumed. -/
theorem Ordered.charged (h : Ordered db) {seen : DB} (hseen : Advanced seen db) {work : Work}
    (hordinals : work.context.ordinals = []) {op : Operation}
    {hfresh : db.operations.find op.id = none} (hwork : op.work = work.id)
    (hchosen : op.ordinal = seen.effectOrdinal work op.kind) : Ordered (db.charged work op hfresh) := by
  have hbelow : ∀ ordinal < op.ordinal, ∃ earlier ∈ db.operations.rows,
      earlier.work = op.work ∧ earlier.kind = op.kind ∧ earlier.ordinal = ordinal ∧
        earlier.consumed = true := by
    intro ordinal hlt
    obtain ⟨last, hlast, hw, hk, ho, hc⟩ :=
      effectOrdinal_pred hordinals ((Nat.succ_pred_eq_of_pos (Nat.zero_lt_of_lt hlt)).trans hchosen)
    rw [Nat.pred_eq_sub_one] at ho
    obtain ⟨row, hrow, hw', hk', ho', hc'⟩ := hseen.consumed hlast hc
    by_cases heq : ordinal = op.ordinal - 1
    · exact ⟨row, hrow, by rw [hw', hw, hwork], by rw [hk', hk], by rw [ho', ho, heq], hc'⟩
    · obtain ⟨earlier, hearlier, hwork', hkind', ho'', hc''⟩ := h row hrow ordinal (by omega)
      exact ⟨earlier, hearlier, by rw [hwork', hw', hw, hwork], by rw [hkind', hk', hk], ho'', hc''⟩
  intro row hrow ordinal hlt
  rcases mem_charged hrow with hold | rfl
  · obtain ⟨earlier, hearlier, hrest⟩ := h row hold ordinal hlt
    exact ⟨earlier, mem_charged_of_mem hearlier, hrest⟩
  · obtain ⟨earlier, hearlier, hrest⟩ := hbelow ordinal hlt
    exact ⟨earlier, mem_charged_of_mem hearlier, hrest⟩

/-- Every context is free of the key `ordinals`. -/
def Plain (db : DB) : Prop := ∀ w ∈ db.works.rows, w.context.ordinals = []

end DB

theorem Call.Writes.plain {call : Call} {w w' : Work} (h : call.Writes w w')
    (hrecords : ∀ record ∈ call.records, record.context.ordinals = [])
    (hcontexts : ∀ context ∈ History.contexts call, context.ordinals = [])
    (hw : w.context.ordinals = []) : w'.context.ordinals = [] := by
  cases call with
  | transition work status changes operation operations =>
      rcases h with rfl | ⟨-, rfl⟩
      · exact hw
      · cases hchange : changes.context with
        | none => simpa only [DB.changed, hchange, Option.getD_none] using hw
        | some context =>
            simpa only [DB.changed, hchange, Option.getD_some] using
              hcontexts context (by simp [History.contexts, hchange])
  | child parent work mode goal source inputs scope checks limit operation =>
      rcases h with rfl | ⟨-, rfl⟩
      · exact hw
      · exact hrecords parent (List.mem_singleton.mpr rfl)
  | batch parent tasks source =>
      rcases h with rfl | ⟨-, rfl⟩
      · exact hw
      · exact hrecords parent (List.mem_singleton.mpr rfl)
  | bindContract work c nextPhase context operation =>
      rcases h with rfl | ⟨-, -, -, rfl⟩
      · exact hw
      · cases nextPhase with
        | none => exact hw
        | some phase =>
            cases context with
            | none => exact hrecords work (List.mem_singleton.mpr rfl)
            | some context => exact hcontexts context (by simp [History.contexts])
  | reserve work kind ordinal inputs model provider =>
      rcases h with rfl | rfl <;> exact hw
  | _ =>
      obtain rfl := h
      exact hw

theorem Call.Adds.plain {call : Call} {db : DB} {w : Work} (h : call.Adds db w) :
    w.context.ordinals = [] := by
  cases call with
  | createWorkflow =>
      obtain ⟨c, -, rfl⟩ := h
      rfl
  | child =>
      obtain ⟨pc, c, -, -, rfl⟩ := h
      rfl
  | batch =>
      obtain ⟨pc, c, work, task, checks, -, -, -, -, rfl⟩ := h
      rfl
  | addon =>
      obtain ⟨pc, c, -, -, rfl⟩ := h
      rfl
  | _ => exact h.elim

/-! ### All runs -/

namespace History

variable {s t : History} {trace : List (Taken History Call)}

/-- A property of databases that every call keeps holds of all that were ever committed. -/
theorem seen_keeps {P : DB → Prop} (hempty : P .empty)
    (hexec : ∀ db db' (call : Call), P db → call.exec db = .ok db' → P db') (h : storeSystem.Reachable s) :
    ∀ db ∈ s.seen, P db := by
  refine h.invariant (I := fun s => ∀ db ∈ s.seen, P db) ?_ ?_
  · rintro _ rfl db hdb
    obtain rfl := List.mem_singleton.mp hdb
    exact hempty
  · rintro s call _ ih ⟨-, -, rfl⟩ db hdb
    rcases List.mem_cons.mp hdb with rfl | hold
    · show P (call.after s.now)
      unfold Call.after
      split
      · next hok => exact hexec _ _ _ (ih s.now List.mem_cons_self) hok
      · exact ih s.now List.mem_cons_self
    · exact ih db hold

theorem now_keeps {P : DB → Prop} (hempty : P .empty)
    (hexec : ∀ db db' (call : Call), P db → call.exec db = .ok db' → P db') (h : storeSystem.Reachable s) :
    P s.now := seen_keeps hempty hexec h s.now List.mem_cons_self

theorem named (h : storeSystem.Reachable s) : s.now.Named :=
  now_keeps (fun _ hop => absurd hop List.not_mem_nil) (fun _ _ _ hn hexec => hn.exec hexec) h

theorem receipted (h : storeSystem.Reachable s) : s.now.Receipted :=
  now_keeps (fun _ hop => absurd hop List.not_mem_nil) (fun _ _ _ hr hexec => hr.exec hexec) h

/-- The records a step relies on are rows of the database it acts on. -/
theorem records_rows (h : storeSystem.Reachable s) {call : Call} (hread : ∀ w ∈ call.records, s.Read w) :
    ∀ w ∈ call.records, ∃ row, s.now.works.find w.id = some row := by
  intro w hw
  obtain ⟨row, hrow, -⟩ := (hread w hw).later h
  exact ⟨row, hrow⟩

theorem seen_plain (h : storeSystem.Reachable s) : ∀ db ∈ s.seen, db.Plain := by
  obtain ⟨trace, hrun⟩ := h
  induction hrun with
  | start hs =>
      obtain rfl := hs
      intro db hdb w hw
      obtain rfl := List.mem_singleton.mp hdb
      exact absurd hw List.not_mem_nil
  | @step trace s t call hrun hstep ih =>
      obtain ⟨hread, hcontexts, rfl⟩ := hstep
      intro db hdb
      rcases List.mem_cons.mp hdb with rfl | hold
      · show (call.after s.now).Plain
        unfold Call.after
        split
        · next db' hok =>
            intro w hw
            rcases (Call.exec_rows (records_rows ⟨_, hrun⟩ hread) hok).mem hw with
              ⟨old, hold, -, hwrites⟩ | ⟨hadds, -⟩
            · refine hwrites.plain (fun record hrecord => ?_) hcontexts
                (ih s.now List.mem_cons_self old hold)
              obtain ⟨seen, hseen, hfind⟩ := hread record hrecord
              exact ih seen hseen record (find_some hfind).1
            · exact hadds.plain
        · exact ih s.now List.mem_cons_self
      · exact ih db hold

/-- A record that some caller holds. -/
theorem Read.plain {w : Work} (hw : s.Read w) (h : storeSystem.Reachable s) :
    w.context.ordinals = [] := by
  obtain ⟨db, hdb, hfind⟩ := hw
  exact seen_plain h db hdb w (find_some hfind).1

/-- The caller is `Engine.effect`: it chose the ordinal from the operations it had read. -/
def ByEffect (s : History) : Call → Prop
  | .reserve work kind ordinal _ _ _ => ∃ db ∈ s.seen, ordinal = db.effectOrdinal work kind
  | _ => True

theorem ordered (h : storeSystem.Run trace s)
    (heffect : System.Meets (fun s call _ => s.ByEffect call) trace) : s.now.Ordered := by
  induction h with
  | start hs =>
      obtain rfl := hs
      exact fun op hop => absurd hop List.not_mem_nil
  | @step trace s t call hrun hstep ih =>
      have hchosen : s.ByEffect call := heffect.last
      have hnow := ih heffect.of_append_left
      obtain ⟨hread, -, rfl⟩ := hstep
      show (call.after s.now).Ordered
      unfold Call.after
      split
      · next db' hok =>
          rcases Call.exec_ok hok with ⟨work, kind, ordinal, inputs, model, provider, rfl, hnew⟩ | hwrote
          · obtain ⟨hfresh, rfl⟩ := hnew.writes
            obtain ⟨seen, hseen, hordinal⟩ := hchosen
            exact hnow.charged (seen_advanced ⟨_, hrun⟩ seen hseen)
              ((hread work (List.mem_singleton.mpr rfl)).plain ⟨_, hrun⟩) rfl hordinal
          · exact hnow.wrote hwrote fun _ _ hmove => hmove.later
      · exact hnow

/-- After a reservation has answered new, its operation is in the table. -/
theorem answersNew_reserved {call : Call} {work : Work} {kind : Kind} {ordinal : Nat}
    (hnew : call.answersNew s.now work kind ordinal) (hstep : storeSystem.step s call t) :
    ∃ op, t.now.operations.find (.uuid5 work.id kind ordinal) = some op := by
  obtain ⟨-, -, rfl⟩ := hstep
  cases call with
  | reserve w k n inputs model provider =>
      obtain ⟨rfl, rfl, rfl, db', hres⟩ := hnew
      obtain ⟨hfresh, rfl⟩ := (DB.reserve_new hres).writes
      have hexec : (Call.reserve w k n inputs model provider).exec s.now = .ok _ :=
        congrArg (Except.map Prod.fst) hres
      refine ⟨DB.reserved w k n inputs model provider, ?_⟩
      show (Call.after s.now _).operations.find _ = _
      rw [Call.after, hexec]
      exact find_insert_self _ _ hfresh
  | _ => exact hnew.elim

/-- A reservation that answers new finds its operation absent. -/
theorem answersNew_absent {call : Call} {work : Work} {kind : Kind} {ordinal : Nat}
    (hnew : call.answersNew s.now work kind ordinal) :
    s.now.operations.find (.uuid5 work.id kind ordinal) = none := by
  cases call with
  | reserve w k n inputs model provider =>
      obtain ⟨rfl, rfl, rfl, db', hres⟩ := hnew
      exact (DB.reserve_new hres).writes.1
  | _ => exact hnew.elim

/-- An operation that a step settles was settled by `settle`, or by a restart when it may be repeated. -/
theorem leaves {call : Call} {identity : OperationId} {op op' : Operation}
    (hstep : storeSystem.step s call t) (hop : s.now.operations.find identity = some op)
    (hop' : t.now.operations.find identity = some op') (hopen : op.state.unresolved = true)
    (hleft : op'.state.unresolved = false) :
    (∃ result state, call = .settle identity result state) ∨
      (call = .orphanCalls ∧ op.repeatable = true) := by
  have hmoved : op' ≠ op := by
    rintro rfl
    rw [hopen] at hleft
    cases hleft
  obtain ⟨-, -, rfl⟩ := hstep
  change (call.after s.now).operations.find identity = some op' at hop'
  unfold Call.after at hop'
  split at hop'
  · next db' hok =>
      rcases Call.exec_ok hok with ⟨work, kind, ordinal, inputs, model, provider, -, hnew⟩ | hwrote
      · obtain ⟨hfresh, rfl⟩ := hnew.writes
        obtain ⟨row, hrow, rfl⟩ := (DB.charged_operations work _ hfresh).find hop
        exact absurd (Option.some.inj (hop'.symm.trans hrow)) hmoved
      · obtain ⟨row, hrow, hmove⟩ := hwrote.operations.find hop
        obtain rfl := Option.some.inj (hop'.symm.trans hrow)
        obtain rfl := find_key hop
        exact hmove.leaves hopen hleft
  · exact absurd (Option.some.inj (hop'.symm.trans hop)) hmoved

end History

/-! ### Fencing -/

open History

/-- **The ledger is fenced.** Along every run of the store: an effect is dispatched at most once for
its work item, kind and ordinal; a reservation answers new only while no operation of its workflow has
an unknown outcome and no imported call is unresolved; an operation is settled by `settle`, or by a
restart if it is repeatable local work, and consumed only once settled; and if every ordinal is chosen
by `effect`, the operations of each work item and kind form a gap-free sequence in which all but
possibly the last are consumed. -/
theorem ledger_fencing {trace : List (Taken History Call)} {s : History}
    (h : storeSystem.Run trace s) :
    (trace.Pairwise fun d e => ∀ work work' kind ordinal, work.id = work'.id →
      d.label.answersNew d.before.now work kind ordinal →
        ¬ e.label.answersNew e.before.now work' kind ordinal) ∧
    (∀ e ∈ trace, ∀ work kind ordinal, e.label.answersNew e.before.now work kind ordinal →
      (∀ row op owner, e.before.now.works.find work.id = some row →
        op ∈ e.before.now.operations.rows → e.before.now.works.find op.work = some owner →
        owner.workflow = row.workflow → op.state ≠ .unknown) ∧
      ∀ call ∈ e.before.now.unassigned.rows, call.unresolved = false) ∧
    (∀ e ∈ trace, ∀ id op op', e.before.now.operations.find id = some op →
      e.after.now.operations.find id = some op' → op.state.unresolved = true →
      op'.state.unresolved = false →
        (∃ result state, e.label = .settle id result state) ∨
          (e.label = .orphanCalls ∧ op.repeatable = true)) ∧
    (∀ op ∈ s.now.operations.rows, op.consumed = true → op.state.settled = true) ∧
    (System.Meets (fun s call _ => s.ByEffect call) trace → ∀ work kind, s.now.GapFree work kind) := by
  refine ⟨?_, ?_, ?_, receipted h.reachable, fun heffect work kind =>
    DB.gapFree_of_ordered (named h.reachable) (ordered h heffect) work kind⟩
  · refine System.Run.pairwise ?_ h
    intro trace s call t hrun hstep d hd work work' kind ordinal hid hfirst hsecond
    obtain ⟨-, htaken⟩ := hrun.taken hd
    -- The row of the first reservation is still there.
    obtain ⟨op, hop⟩ := hrun.lasts (P := fun s => ∃ op, s.now.operations.find
      (.uuid5 work.id kind ordinal) = some op) (fun s call t ⟨op, hop⟩ hstep => by
        obtain ⟨op', hop', -⟩ := (step_advanced hstep).operations _ _ hop
        exact ⟨op', hop'⟩) hd (answersNew_reserved hfirst htaken)
    rw [hid, answersNew_absent hsecond] at hop
    cases hop
  · intro e he work kind ordinal hnew
    obtain ⟨hreach, hread, -, -⟩ := h.taken he
    cases hcall : e.label with
    | reserve w k n inputs model provider =>
        rw [hcall] at hnew hread
        obtain ⟨rfl, rfl, rfl, db', hres⟩ := hnew
        have hreserves := DB.reserve_new hres
        refine ⟨?_, hreserves.assigned⟩
        intro row op owner hrow hop howner hworkflow hunknown
        obtain ⟨row', hrow', hlater⟩ := (hread w (List.mem_singleton.mpr rfl)).later hreach
        obtain rfl := Option.some.inj (hrow.symm.trans hrow')
        have hfenced := hreserves.known op hop hunknown
        simp only [DB.inWorkflow, howner, hworkflow, hlater.workflow, Option.any_some, beq_self_eq_true,
          Bool.true_eq_false] at hfenced
    | _ =>
        rw [hcall] at hnew
        exact hnew.elim
  · intro e he id op op' hop hop' hopen hleft
    exact leaves (h.taken he).2 hop hop' hopen hleft

theorem ledger_fencing_firstCalls :
    (origin.replay firstCalls).now.GapFree "work" (.model .classify) := by
  refine (ledger_fencing firstCalls_run).2.2.2.2 ?_ "work" (.model .classify)
  intro e he
  simp only [firstCalls, taken, List.mem_cons, List.not_mem_nil, or_false] at he
  rcases he with rfl | rfl | rfl
  · trivial
  · trivial
  · exact ⟨_, List.mem_cons_self, by decide⟩

end AutoAgents
