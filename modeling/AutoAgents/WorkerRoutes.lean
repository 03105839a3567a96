import AutoAgents.WorkerProtocol

/-! How the targets of the client's operations are taken apart by the server, and what a request that is sent and taken comes to. -/

namespace AutoAgents.Worker

open Base

/-! ### Targets -/

theorem takeWhile_self {p : Char → Bool} {text : List Char} (h : ∀ c ∈ text, p c = true) : text.takeWhile p = text :=
  List.takeWhile_eq_self_iff.mpr h

/-- A path in which nothing is cut off. -/
def plainPath (path : List Char) : Prop := ∀ c ∈ path, c ≠ '#' ∧ c ≠ '?' ∧ c ≠ ';'

theorem plainPath_of_all {path : List Char} (h : (path.all fun c => c != '#' && c != '?' && c != ';') = true) : plainPath path := by
  intro c hc
  simpa [and_assoc] using List.all_eq_true.mp h c hc

/-- The last part of a path, without its parameters. -/
theorem withoutParams {path : List Char} (h : plainPath path) :
    (path.take (path.length - (path.reverse.takeWhile (· != '/')).reverse.length)) ++
      ((path.reverse.takeWhile (· != '/')).reverse).takeWhile (· != ';') = path := by
  obtain ⟨last, hlast⟩ : ∃ last, last = (path.reverse.takeWhile (· != '/')).reverse := ⟨_, rfl⟩
  obtain ⟨first, hfirst⟩ : ∃ first, first ++ last = path := by
    refine ⟨(path.reverse.dropWhile (· != '/')).reverse, ?_⟩
    rw [hlast, ← List.reverse_append, List.takeWhile_append_dropWhile, List.reverse_reverse]
  have hkept : last.takeWhile (· != ';') = last := by
    apply takeWhile_self
    intro c hc
    have hmem : c ∈ path := by
      rw [← hfirst]
      exact List.mem_append_right first hc
    rw [bne_iff_ne]
    exact (h c hmem).2.2
  rw [← hlast, hkept, ← hfirst]
  simp

theorem urlparse_plain {path : List Char} (h : plainPath path) : urlparse path = (path, []) := by
  have hurl : path.takeWhile (· != '#') = path := takeWhile_self fun c hc => by simpa using (h c hc).1
  have hpath : path.takeWhile (· != '?') = path := takeWhile_self fun c hc => by simpa using (h c hc).2.1
  have hquery : path.dropWhile (· != '?') = [] := by
    rw [List.dropWhile_eq_nil_iff]
    intro c hc
    simpa using (h c hc).2.1
  unfold urlparse
  simp only [hurl, hpath, hquery, withoutParams h, List.drop_nil]

theorem urlparse_query {path query : List Char} (h : plainPath path) (hquery : '#' ∉ query) :
    urlparse (path ++ '?' :: query) = (path, query) := by
  have hurl : (path ++ '?' :: query).takeWhile (· != '#') = path ++ '?' :: query := by
    apply takeWhile_self
    intro c hc
    rw [bne_iff_ne]
    rcases List.mem_append.mp hc with hpath | hrest
    · exact (h c hpath).1
    · rintro rfl
      rcases List.mem_cons.mp hrest with heq | hmem
      · exact absurd heq (by decide)
      · exact hquery hmem
  have hkeep : ∀ c ∈ path, (c != '?') = true := fun c hc => by simpa using (h c hc).2.1
  have hpath : (path ++ '?' :: query).takeWhile (· != '?') = path := by
    rw [List.takeWhile_append_of_pos hkeep]
    simp
  have hdrop : (path ++ '?' :: query).dropWhile (· != '?') = '?' :: query := by
    rw [List.dropWhile_append_of_pos hkeep]
    rfl
  unfold urlparse
  simp only [hurl, hpath, hdrop, withoutParams h]
  rfl

/-! ### Job ids -/

/-- An id that has no outer spaces is its characters. -/
def JobId.bare (job : JobId) : Prop := Operator.strip job.1.toList = job.1.toList

theorem JobId.bare_char {job : JobId} (h : job.bare) {c : Char} (hc : c ∈ job.1.toList) :
    c.isAlphanum = true ∨ c = '-' ∨ c = '_' := by
  have hsome := job.2
  rw [safeIdentifier] at hsome
  split at hsome
  · next hsafe =>
      rw [h] at hsafe
      have hchar := List.all_eq_true.mp hsafe.2 c hc
      simpa [or_assoc] using hchar
  · cases hsome

theorem isAlphanum_toNat {c : Char} (h : c.isAlphanum = true) :
    48 ≤ c.toNat ∧ c.toNat ≤ 57 ∨ 65 ≤ c.toNat ∧ c.toNat ≤ 90 ∨ 97 ≤ c.toNat ∧ c.toNat ≤ 122 := by
  simp only [Char.isAlphanum, Char.isAlpha, Char.isUpper, Char.isLower, Char.isDigit, Bool.or_eq_true, Bool.and_eq_true,
    decide_eq_true_eq, ge_iff_le, UInt32.le_iff_toNat_le] at h
  change (65 ≤ c.toNat ∧ c.toNat ≤ 90 ∨ 97 ≤ c.toNat ∧ c.toNat ≤ 122) ∨ 48 ≤ c.toNat ∧ c.toNat ≤ 57 at h
  omega

theorem JobId.bare_toNat {job : JobId} (h : job.bare) {c : Char} (hc : c ∈ job.1.toList) : 32 < c.toNat ∧ c.toNat < 127 ∧
    c ≠ '#' ∧ c ≠ '?' ∧ c ≠ ';' ∧ c ≠ '/' := by
  rcases job.bare_char h hc with halnum | rfl | rfl
  · have hrange := isAlphanum_toNat halnum
    refine ⟨by omega, by omega, ?_, ?_, ?_, ?_⟩ <;> rintro rfl <;> revert hrange <;> decide
  · decide
  · decide

/-- A text of visible characters has no outer spaces. -/
theorem strip_of_urlChar {text : List Char} (h : ∀ c ∈ text, urlChar c = true) : Operator.strip text = text := by
  have hkeep : ∀ {text : List Char}, (∀ c ∈ text, urlChar c = true) → text.dropWhile Operator.isSpace = text := by
    intro text h
    cases text with
    | nil => rfl
    | cons c rest =>
        have hc := h c List.mem_cons_self
        have hspace : Operator.isSpace c = false := by
          simp only [urlChar, decide_eq_true_eq] at hc
          simp only [Operator.isSpace, Bool.or_eq_false_iff, decide_eq_false_iff_not, beq_eq_false_iff_ne]
          omega
        rw [List.dropWhile_cons, hspace]
        rfl
  rw [Operator.strip, hkeep h, @hkeep text.reverse, List.reverse_reverse]
  intro c hc
  exact h c (List.mem_reverse.mp hc)

/-! ### Routes -/

theorem partition_action {job action : List Char} (h : '/' ∉ job) :
    partition (job ++ '/' :: action) = (String.ofList job, String.ofList action) := by
  have hkeep : ∀ c ∈ job, (c != '/') = true := by
    intro c hc
    rw [bne_iff_ne]
    rintro rfl
    exact h hc
  rw [partition, List.takeWhile_append_of_pos hkeep, List.dropWhile_append_of_pos hkeep]
  simp

theorem partition_plain {job : List Char} (h : '/' ∉ job) : partition job = (String.ofList job, "") := by
  have hkeep : ∀ c ∈ job, (c != '/') = true := by
    intro c hc
    rw [bne_iff_ne]
    rintro rfl
    exact h hc
  rw [partition, takeWhile_self hkeep, List.dropWhile_eq_nil_iff.mpr hkeep]
  rfl

section

variable {rt : Runtime} {w : Functions} {lib : Library} {state : ClusterState}

theorem job_path_ne {path rest : List Char} (h : path.take 9 ≠ "/v1/jobs/".toList) : "/v1/jobs/".toList ++ rest ≠ path := by
  rintro rfl
  exact h rfl

/-- An endpoint of a job. -/
theorem route_job {command : String} {rest : List Char} {payload : Bytes} {handled : Handled}
    (h : jobRoute rt w command (partition rest).1 (partition rest).2 payload = some handled) :
    route rt w command ("/v1/jobs/".toList ++ rest) payload = handled := by
  have hprobe : "/v1/jobs/".toList ++ rest ≠ "/v1/probe".toList := job_path_ne (by decide)
  have hjobs : "/v1/jobs/".toList ++ rest ≠ "/v1/jobs".toList := job_path_ne (by decide)
  have hstart : "/v1/jobs/".toList.isPrefixOf ("/v1/jobs/".toList ++ rest) = true := List.isPrefixOf_iff_prefix.mpr (List.prefix_append _ _)
  have hdrop : ("/v1/jobs/".toList ++ rest).drop 9 = rest := rfl
  unfold route
  rw [if_neg (fun hand => hprobe hand.2), if_neg (fun hand => hjobs hand.2), if_pos hstart]
  simp only [hdrop, h, Option.getD_some]

/-- A request that has a route, and is sent. -/
theorem request_route (x : Exchange lib) {method : String} {target : List Char} {body : Bytes} (hplain : plainPath target)
    (hsnapshots : target ≠ "/v1/snapshots".toList) (hpair : target ≠ "/v1/pair".toList) (hchars : target.all urlChar = true)
    (hline : method.length + target.length + 12 ≤ maxRequestLine) (hsize : body.length ≤ maxRequestBytes) :
    request rt w state x method target body =
      ((route rt w method target body).calls, response rt (route rt w method target body).reply) := by
  have hparsed : urlparse (x.arrival state method target body).path.toList = (target, []) := by
    rw [Exchange.arrival, String.toList_ofList, urlparse_plain hplain]
  have hlength : ¬ maxRequestLine < (x.arrival state method target body).command.length +
      (x.arrival state method target body).path.length + 12 := by
    simp only [Exchange.arrival, String.length_ofList]
    omega
  have hauth := x.authenticated state method target body
  have hdispatch : dispatch rt w lib state x.nonces (x.arrival state method target body) = route rt w method target body := by
    unfold dispatch
    simp only [hparsed, hsnapshots, hpair, and_false, if_false, hauth, if_true]
    exact if_neg (Nat.not_lt.mpr hsize)
  rw [request, if_pos hchars, handle, if_neg hlength, hdispatch]

/-- A body that is too long calls nothing. -/
theorem dispatch_large {nonces : Nonces} {a : Arrival} (h : maxRequestBytes < a.body.length) :
    (dispatch rt w lib state nonces a).calls = [] := by
  have hpair : 16 * 1024 < a.body.length := Nat.lt_trans (by decide) h
  have hlimit : (if (urlparse a.path.toList).1 = "/v1/pair".toList then 16 * 1024 else maxRequestBytes) < a.body.length := by
    split
    · exact hpair
    · exact h
  unfold dispatch
  simp only [if_pos h, if_pos hlimit]
  split <;> rfl

/-- What cannot be sent, or is not taken, calls nothing. -/
theorem request_lost (x : Exchange lib) {method : String} {target : List Char} {body : Bytes}
    (h : ¬ (target.all urlChar = true ∧ method.length + target.length + 12 ≤ maxRequestLine ∧ body.length ≤ maxRequestBytes)) :
    (request rt w state x method target body).1 = [] := by
  rw [request]
  split
  · next hchars =>
      rw [handle]
      split
      · rfl
      · next hline =>
          apply dispatch_large
          by_contra hsize
          apply h
          simp only [Exchange.arrival, String.length_ofList] at hline hsize
          exact ⟨hchars, by omega, by omega⟩
  · rfl

/-! ### Characters that are sent -/

theorem urlChar_of_quoted {c : Char} (h : isQuoted c = true) : urlChar c = true := by
  simp only [isQuoted, Bool.or_eq_true, List.contains_iff_mem, List.mem_cons, List.not_mem_nil, or_false] at h
  rcases h with halnum | rfl | rfl | rfl | rfl | rfl | rfl
  · have hrange := isAlphanum_toNat halnum
    simp only [urlChar, decide_eq_true_eq]
    omega
  all_goals decide

theorem urlencode_urlChar {pairs : List (String × String)} {c : Char} (h : c ∈ urlencode pairs) : urlChar c = true ∧ c ≠ '#' := by
  rcases urlencode_chars h with hquoted | rfl | rfl
  · refine ⟨urlChar_of_quoted hquoted, ?_⟩
    rintro rfl
    cases hquoted
  · decide
  · decide

/-- A job's path can be sent if its id has no outer spaces. -/
theorem job_chars {job : JobId} {action : List Char} (haction : action.all urlChar = true) :
    ("/v1/jobs/".toList ++ job.1.toList ++ action).all urlChar = true ↔ job.bare := by
  have hstart : "/v1/jobs/".toList.all urlChar = true := by decide
  rw [List.all_append, List.all_append, hstart, haction, Bool.true_and, Bool.and_true]
  constructor
  · exact fun hall => strip_of_urlChar (List.all_eq_true.mp hall)
  · intro hbare
    rw [List.all_eq_true]
    intro c hc
    obtain ⟨hlow, hhigh, -⟩ := job.bare_toNat hbare hc
    simpa [urlChar] using ⟨hlow, hhigh⟩

theorem only_job {job : JobId} : (∀ other, some job = some other → other.bare) ↔ job.bare := by
  constructor
  · exact fun h => h job rfl
  · intro h other heq
    rwa [← Option.some.inj heq]

theorem path_chars : ∀ path ∈ ["/v1/probe", "/v1/jobs", "/v1/cleanup-plan", "/v1/gc", "/v1/repair-capability", "/cancel", "/artifacts",
    "/artifact-ack", "/v1/snapshots?"], path.toList.all urlChar = true := by decide +kernel

/-- The characters of a target can be sent if its job id has no outer spaces. -/
theorem Operation.target_chars (op : Operation) : op.target.all urlChar = true ↔ ∀ job, op.job? = some job → job.bare := by
  cases op with
  | query job =>
      have hchars := @job_chars job [] rfl
      rw [List.append_nil] at hchars
      exact hchars.trans only_job.symm
  | cancel job => exact (job_chars (path_chars "/cancel" (by simp))).trans only_job.symm
  | artifacts job => exact (job_chars (path_chars "/artifacts" (by simp))).trans only_job.symm
  | acknowledgeArtifacts job archiveSha => exact (job_chars (path_chars "/artifact-ack" (by simp))).trans only_job.symm
  | stage projectKey snapshot sourceRef bundle =>
      refine iff_of_true ?_ (fun job hjob => nomatch hjob)
      refine List.all_eq_true.mpr fun c hc => ?_
      rcases List.mem_append.mp hc with hstart | hquery
      · exact List.all_eq_true.mp (path_chars "/v1/snapshots?" (by simp)) c hstart
      · exact (urlencode_urlChar hquery).1
  | probe => exact iff_of_true (path_chars "/v1/probe" (by simp)) (fun job hjob => nomatch hjob)
  | submit manifest => exact iff_of_true (path_chars "/v1/jobs" (by simp)) (fun job hjob => nomatch hjob)
  | cleanupPlan projectKey planId => exact iff_of_true (path_chars "/v1/cleanup-plan" (by simp)) (fun job hjob => nomatch hjob)
  | gc maxAgeSeconds => exact iff_of_true (path_chars "/v1/gc" (by simp)) (fun job hjob => nomatch hjob)
  | repairCapability =>
      exact iff_of_true (path_chars "/v1/repair-capability" (by simp)) (fun job hjob => nomatch hjob)

/-- What cannot be sent, or is not taken, calls nothing. -/
theorem Operation.send_lost (op : Operation) (x : Exchange lib)
    (h : ¬ (op.target.all urlChar = true ∧ op.method.length + op.target.length + 12 ≤ maxRequestLine ∧
      op.body.length ≤ maxRequestBytes)) : (op.send rt w state x).1 = [] := by
  have hlost := @request_lost rt w lib state x _ _ _ h
  unfold Operation.send
  split
  · split
    · rfl
    · exact hlost
  · exact hlost

/-- The request for an endpoint of a job. -/
theorem request_job (x : Exchange lib) {method : String} {job : JobId} {action : List Char} {body : Bytes} {handled : Handled}
    (hbare : job.bare) (haction : ∀ c ∈ action, urlChar c = true ∧ c ≠ '#' ∧ c ≠ '?' ∧ c ≠ ';')
    (hline : method.length + ("/v1/jobs/".toList ++ job.1.toList ++ action).length + 12 ≤ maxRequestLine)
    (hsize : body.length ≤ maxRequestBytes)
    (h : jobRoute rt w method (partition (job.1.toList ++ action)).1 (partition (job.1.toList ++ action)).2 body = some handled) :
    request rt w state x method ("/v1/jobs/".toList ++ job.1.toList ++ action) body = (handled.calls, response rt handled.reply) := by
  have hplain : plainPath ("/v1/jobs/".toList ++ job.1.toList ++ action) := by
    have hstart : plainPath "/v1/jobs/".toList := plainPath_of_all (by decide)
    intro c hc
    rcases List.mem_append.mp hc with hfirst | hlast
    · rcases List.mem_append.mp hfirst with hstarts | hjob
      · exact hstart c hstarts
      · obtain ⟨-, -, hhash, hquestion, hsemicolon, -⟩ := job.bare_toNat hbare hjob
        exact ⟨hhash, hquestion, hsemicolon⟩
    · exact (haction c hlast).2
  have hchars := (job_chars (List.all_eq_true.mpr fun c hc => (haction c hc).1)).mpr hbare
  have hsnapshots : "/v1/jobs/".toList ++ job.1.toList ++ action ≠ "/v1/snapshots".toList := by
    rw [List.append_assoc]
    exact job_path_ne (by decide)
  have hpair : "/v1/jobs/".toList ++ job.1.toList ++ action ≠ "/v1/pair".toList := by
    rw [List.append_assoc]
    exact job_path_ne (by decide)
  rw [request_route x hplain hsnapshots hpair hchars hline hsize]
  rw [List.append_assoc, route_job h]

end

end AutoAgents.Worker
