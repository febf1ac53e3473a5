import Solids.Proofs.Build.Log

/-!
# Builds that are stopped

A build that the probe stops is the beginning of the build that it never stops (`Follows`): the same
is done up to the poll at which it is stopped, and nothing after it.

The main statement, `stops_cleanly`, holds for every tree and every scene, however they are built
already, for every cache and for every probe, also one that would not stop the build a second time.

* The build ends before it is done exactly if a poll of its own said so, and that poll is the last
  thing that it does.
* Every part but the root is visited right after a poll of its own, and there is no other poll than
  these and the one that stopped the build (`Orderly`).
* The cache that a stopped build leaves is the one that the poll would have found otherwise.
-/

namespace Solids

variable {α ω β γ : Type}

/-- The probe that stops nothing. -/
def never : Nat → Bool := fun _ => false

/-- The number of parts that are visited. -/
def visits (es : List (Event α ω)) : Nat :=
  es.countP fun
    | .visit _ => true
    | _ => false

/-- Every poll lets a part be visited, which is visited right then, or is the last event; and there
    are no other visits. -/
inductive Orderly : List (Event α ω) → Prop
  | nil : Orderly []
  | stop (c : Cache α ω) : Orderly [.poll true c]
  | visit (c : Cache α ω) (n : Node α) {es : List (Event α ω)} :
      Orderly es → Orderly (.poll false c :: .visit n :: es)
  | lookup (k : CacheKey) {es : List (Event α ω)} : Orderly es → Orderly (.lookup k :: es)
  | construct (n : Node α) (m : Mesh α) {es : List (Event α ω)} :
      Orderly es → Orderly (.construct n m :: es)

/-- The build `x` is the build `y`, which no poll stops, or it is what `y` is up to a poll. -/
inductive Follows (x y : Logged α ω (Bool × β × Site α ω)) : Prop
  | same : x = y → true ∉ answers x.log → (∀ r, x.result = .ok r → r.1 = true) → Follows x y
  | cut {before after : List (Event α ω)} {c : Cache α ω} {z : β} {s : Site α ω} :
      true ∉ answers before → y.log = before ++ .poll false c :: after →
        x = ⟨before ++ [.poll true c], .ok (false, z, s)⟩ → Follows x y

/-! ## Logs in order -/

/-- The answers in a list of events and in another are those in both. -/
@[simp] theorem answers_append (es es' : List (Event α ω)) :
    answers (es ++ es') = answers es ++ answers es' :=
  List.filterMap_append

namespace Orderly

variable {es es' : List (Event α ω)}

/-- Events in order that nothing stops can be followed by others. -/
theorem append (h : Orderly es) (hgo : true ∉ answers es) (h' : Orderly es') :
    Orderly (es ++ es') := by
  induction h with
  | nil => exact h'
  | stop c => exact absurd List.mem_cons_self hgo
  | visit c n _ ih => exact .visit c n (ih fun hmem => hgo (List.mem_cons_of_mem false hmem))
  | lookup k _ ih => exact .lookup k (ih hgo)
  | construct n m _ ih => exact .construct n m (ih hgo)

/-- There are as many polls as visits, and one more if it stopped the build. -/
theorem length_answers (h : Orderly es) :
    (answers es).length = visits es + if true ∈ answers es then 1 else 0 := by
  induction h with
  | nil => rfl
  | stop c => rfl
  | @visit c n es _ ih =>
    change (answers es).length + 1 = _
    have hmem : true ∈ answers (.poll false c :: .visit n :: es) ↔ true ∈ answers es :=
      List.mem_cons.trans (or_iff_right Bool.noConfusion)
    have hvisits : visits (.poll false c :: .visit n :: es) = visits es + 1 := by simp [visits]
    simp only [hmem, hvisits, ih]
    exact Nat.add_right_comm _ _ 1
  | lookup k _ ih => simpa [visits, answers] using ih
  | construct n m _ ih => simpa [visits, answers] using ih

end Orderly

/-! ## One build that follows another -/

namespace Follows

variable {x y : Logged α ω (Bool × β × Site α ω)}

/-- A build that stops at its first poll follows what comes after that poll otherwise. -/
theorem stop (c : Cache α ω) (z : β) (s : Site α ω) (y : Logged α ω (Bool × β × Site α ω)) :
    Follows ⟨[.poll true c], .ok (false, z, s)⟩ (y.after [.poll false c]) :=
  have hnone : true ∉ answers ([] : List (Event α ω)) := List.not_mem_nil
  .cut hnone rfl rfl

/-- Events before both change nothing. -/
theorem after (h : Follows x y) (es : List (Event α ω)) (hes : true ∉ answers es) :
    Follows (x.after es) (y.after es) := by
  cases h with
  | same hxy hgo hdone =>
    refine .same (congrArg _ hxy) ?_ hdone
    rw [Logged.log_after, answers_append, List.mem_append]
    exact not_or.2 ⟨hes, hgo⟩
  | @cut before after c z s hgo hy hx =>
    have hgo' : true ∉ answers (es ++ before) := by
      rw [answers_append, List.mem_append]
      exact not_or.2 ⟨hes, hgo⟩
    have hy' : (y.after es).log = es ++ before ++ .poll false c :: after := by
      rw [Logged.log_after, hy, List.append_assoc]
    refine .cut hgo' hy' (z := z) (s := s) ?_
    rw [hx, Logged.after, List.append_assoc]

/-- What comes after the builds follows, too, if it only passes on that the build was stopped. -/
theorem bind {f g : Bool × β × Site α ω → Logged α ω (Bool × γ × Site α ω)} (h : Follows x y)
    (hf : ∀ z s, x.result = .ok (true, z, s) → Follows (f (true, z, s)) (g (true, z, s)))
    (hstop : ∀ z s, ∃ w, f (false, z, s) = ⟨[], .ok (false, w, s)⟩) :
    Follows (x >>= f) (y >>= g) := by
  cases h with
  | same hxy hgo hdone =>
    subst hxy
    cases hres : x.result with
    | error e =>
      rw [Logged.bind_of_error hres, Logged.bind_of_error hres]
      exact .same rfl hgo fun r hr => absurd hr (by simp)
    | ok r =>
      obtain ⟨done, z, s⟩ := r
      obtain rfl : done = true := hdone _ hres
      rw [Logged.bind_of_ok hres, Logged.bind_of_ok hres]
      exact (hf z s hres).after _ hgo
  | @cut before after c z s hgo hy hx =>
    obtain ⟨w, hw⟩ := hstop z s
    have hlog : ∃ after', (y >>= g).log = before ++ .poll false c :: after' := by
      cases hres : y.result with
      | error e => exact ⟨after, by rw [Logged.bind_of_error hres, hy]⟩
      | ok r =>
        refine ⟨after ++ (g r).log, ?_⟩
        rw [Logged.bind_of_ok hres, Logged.log_after, hy, List.append_assoc, List.cons_append]
    obtain ⟨after', hlog⟩ := hlog
    refine .cut hgo hlog (z := w) (s := s) ?_
    subst hx
    rw [Logged.bind_of_ok rfl, hw, Logged.after, List.append_nil]

/-- A build that is not stopped has the result of the build that nothing stops. -/
theorem result_eq (h : Follows x y) (hx : ∀ r, x.result ≠ .ok (false, r)) :
    x.result = y.result := by
  cases h with
  | same hxy _ _ => rw [hxy]
  | cut _ _ hcut =>
    subst hcut
    exact absurd rfl (hx _)

/-- A build that follows itself is not stopped. -/
theorem result_ne (h : Follows x x) (r : β × Site α ω) : x.result ≠ .ok (false, r) := by
  intro hr
  cases h with
  | same _ _ hdone => exact Bool.false_ne_true (hdone _ hr)
  | cut _ hlog hx =>
    subst hx
    cases List.append_cancel_left hlog

end Follows

variable [Scalar α] {probe : Nat → Bool}

/-- The events of a build lead from its site to the one that it leaves. -/
def Accounted (probe : Nat → Bool) (s : Site α ω) (x : Logged α ω (Bool × β × Site α ω)) : Prop :=
  ∃ s', s.Goes probe x.log s' ∧ ∀ r, x.result = .ok r → r.2.2 = s'

/-- The events of the build `x` are in order and lead from its site to the one that it leaves, and
    the build follows the build `y` that is never stopped. -/
structure Tracked (probe : Nat → Bool) (s : Site α ω) (x y : Logged α ω (Bool × β × Site α ω)) :
    Prop where
  accounted : Accounted probe s x
  orderly : Orderly x.log
  follows : Follows x y

/-- That a part is visited changes nothing. -/
theorem Accounted.after_visit {s : Site α ω} {x : Logged α ω (Bool × β × Site α ω)} {n : Node α}
    (h : Accounted probe s x) : Accounted probe s (x.after [.visit n]) := by
  obtain ⟨s', hgoes, hsite⟩ := h
  exact ⟨s', .cons trivial hgoes, hsite⟩

namespace Tracked

/-- Nothing is done where there is nothing to do. -/
theorem done (s : Site α ω) (z : β) :
    Tracked probe s ⟨[], .ok (true, z, s)⟩ ⟨[], .ok (true, z, s)⟩ where
  accounted := ⟨s, .nil s, fun _ hr => by cases hr; rfl⟩
  orderly := .nil
  follows := .same rfl List.not_mem_nil fun _ hr => by cases hr; rfl

/-- What comes after a build is done to the site that the build left, if it only passes on that the
    build was stopped. -/
theorem bind {s : Site α ω} {x y : Logged α ω (Bool × β × Site α ω)}
    {f g : Bool × β × Site α ω → Logged α ω (Bool × γ × Site α ω)} (h : Tracked probe s x y)
    (hf : ∀ z s', Tracked probe s' (f (true, z, s')) (g (true, z, s')))
    (hstop : ∀ z s', ∃ w, f (false, z, s') = ⟨[], .ok (false, w, s')⟩) :
    Tracked probe s (x >>= f) (y >>= g) := by
  obtain ⟨⟨s', hgoes, hsite⟩, horderly, hfollows⟩ := h
  have hbind := hfollows.bind (fun z s' _ => (hf z s').follows) hstop
  cases hres : x.result with
  | error e =>
    rw [Logged.bind_of_error hres] at hbind ⊢
    exact ⟨⟨s', hgoes, fun r hr => absurd hr (by simp)⟩, horderly, hbind⟩
  | ok r =>
    obtain ⟨done, z, t⟩ := r
    obtain rfl : t = s' := hsite _ hres
    rw [Logged.bind_of_ok hres] at hbind ⊢
    cases done with
    | false =>
      obtain ⟨w, hw⟩ := hstop z t
      rw [hw] at hbind ⊢
      refine ⟨⟨t, ?_, fun r hr => by cases hr; rfl⟩, ?_, hbind⟩ <;>
        rw [Logged.log_after, List.append_nil]
      · exact hgoes
      · exact horderly
    | true =>
      obtain ⟨⟨s'', hgoes', hsite'⟩, horderly', _⟩ := hf z t
      have hgo : true ∉ answers x.log := by
        cases hfollows with
        | same _ hgo _ => exact hgo
        | cut _ _ hx =>
          rw [hx] at hres
          cases hres
      exact ⟨⟨s'', hgoes.append hgoes', hsite'⟩, horderly.append hgo horderly', hbind⟩

/-- A part is looked up in the cache of the site. -/
theorem after_lookups {s : Site α ω} {n : Node α} {x y : Logged α ω (Bool × β × Site α ω)}
    (h : Tracked probe (s.lookup n).2 x y) :
    Tracked probe s (x.after n.lookups) (y.after n.lookups) := by
  rw [Site.lookup] at h
  rw [Node.lookups]
  by_cases hown : n.kind.hasOwnMesh = true
  · rw [if_pos hown] at h ⊢
    obtain ⟨⟨s', hgoes, hsite⟩, horderly, hfollows⟩ := h
    exact ⟨⟨s', .cons trivial hgoes, hsite⟩, .lookup n.key horderly,
      hfollows.after _ List.not_mem_nil⟩
  · rw [if_neg hown] at h ⊢
    exact h

/-- A part is visited after a poll that lets it be visited. -/
theorem after_poll {s : Site α ω} {n : Node α} {x y : Logged α ω (Bool × β × Site α ω)}
    (hprobe : probe s.polls = false) (h : Tracked probe { s with polls := s.polls + 1 } x y) :
    Tracked probe s (x.after [.poll false s.cache, .visit n])
      (y.after [.poll false s.cache, .visit n]) := by
  obtain ⟨⟨s', hgoes, hsite⟩, horderly, hfollows⟩ := h
  refine ⟨⟨s', .cons ⟨hprobe.symm, rfl⟩ (.cons trivial hgoes), hsite⟩,
    .visit s.cache n horderly, hfollows.after _ ?_⟩
  exact fun hmem => Bool.noConfusion (List.mem_singleton.1 hmem)

end Tracked

namespace Node

/-- A part is finished in order, whatever the probe says. -/
theorem tracked_finish (s : Site α ω) (n : Node α) :
    Tracked probe s (do let (n, s) ← s.loggedFinish n; return (true, n, s))
      (do let (n, s) ← s.loggedFinish n; return (true, n, s)) := by
  rw [Site.loggedFinish]
  split
  · cases hm : n.kind.construct n.children with
    | error e =>
      refine ⟨⟨s, .nil s, fun r hr => ?_⟩, .nil, .same rfl List.not_mem_nil fun r hr => ?_⟩
      · cases hr
      · cases hr
    | ok m =>
      have hgoes : s.Goes probe [.construct n m] { s with cache := s.cache.store n.key m } :=
        .cons hm (.nil _)
      refine ⟨⟨_, hgoes, fun r hr => ?_⟩, .construct n m .nil,
        .same rfl List.not_mem_nil fun r hr => ?_⟩
      · cases hr
        rfl
      · cases hr
        rfl
  · exact .done s _

/-- Builds of parts are tracked if that of every part is, once it came to the part. -/
theorem tracked_loggedAll {ns : List (Node α)}
    (h : ∀ n ∈ ns, ∀ s : Site α ω,
      Tracked probe s (n.loggedInside probe s) (n.loggedInside never s))
    (s : Site α ω) : Tracked probe s (loggedAll probe ns s) (loggedAll never ns s) := by
  induction ns generalizing s with
  | nil =>
    rw [loggedAll_nil, loggedAll_nil]
    exact .done s []
  | cons n ns ih =>
    obtain ⟨hn, hns⟩ := List.forall_mem_cons.1 h
    rw [loggedAll_cons, loggedAll_cons, never, if_neg Bool.false_ne_true]
    split
    · next hstop =>
      have hgoes : s.Goes probe [.poll true s.cache] { s with polls := s.polls + 1 } :=
        .cons ⟨hstop.symm, rfl⟩ (.nil _)
      exact ⟨⟨_, hgoes, fun r hr => by cases hr; rfl⟩, .stop s.cache,
        .stop _ _ _ _⟩
    · next hgo =>
      rw [Bool.not_eq_true] at hgo
      rw [logged_eq, logged_eq, Logged.bind_after, Logged.bind_after, Logged.after_after,
        Logged.after_after]
      refine Tracked.after_poll hgo ((hn _).bind (fun n' s' => ?_) fun n' s' => ⟨_, rfl⟩)
      exact (ih hns s').bind (fun ns' s'' => .done s'' _) fun ns' s'' => ⟨_, rfl⟩

/-- A build is tracked, once it came to the part. -/
theorem tracked_loggedInside (n : Node α) (s : Site α ω) :
    Tracked probe s (n.loggedInside probe s) (n.loggedInside never s) := by
  induction n using induction generalizing s with
  | step n ih =>
    have hall (s : Site α ω) := tracked_loggedAll ih s
    have hdrawn (n' : Node α) (hchildren : n'.children = n.children) (s : Site α ω) :
        Tracked probe s (n'.loggedDrawn probe s) (n'.loggedDrawn never s) := by
      rw [loggedDrawn, loggedDrawn, hchildren]
      split
      · exact (hall s).bind (fun cs s' => .done s' _) fun cs s' => ⟨_, rfl⟩
      · exact .done s n'
    rw [loggedInside, loggedInside]
    split
    · exact hdrawn n rfl s
    · refine Tracked.after_lookups ?_
      split
      · exact hdrawn { n with mesh := _, state := _ } rfl _
      · exact (hall _).bind (fun cs s' => tracked_finish s' _) fun cs s' => ⟨_, rfl⟩

/-- A build follows the build that nothing stops. -/
theorem follows_logged (n : Node α) (s : Site α ω) :
    Follows (n.logged probe s) (n.logged never s) := by
  have htracked : Tracked probe s (n.loggedInside probe s) (n.loggedInside never s) :=
    n.tracked_loggedInside s
  rw [logged_eq, logged_eq]
  exact htracked.follows.after [.visit n] List.not_mem_nil

/-- A build that is not stopped is the build that nothing stops. -/
theorem build_eq_never {n : Node α} {s : Site α ω} (h : ∀ r, n.build probe s ≠ .ok (false, r)) :
    n.build probe s = n.build never s := by
  rw [← n.result_logged, ← n.result_logged]
  exact (n.follows_logged s).result_eq fun r hr => h r (n.result_logged s ▸ hr)

/-- A build that nothing stops is not stopped. -/
theorem build_never_ne {n : Node α} {s : Site α ω} (r : Node α × Site α ω) :
    n.build never s ≠ .ok (false, r) := by
  rw [← n.result_logged]
  exact (n.follows_logged s).result_ne r

end Node

/-- A build of a scene is tracked. -/
theorem Scene.tracked_logged (scene : Scene α) (s : Site α ω) :
    Tracked probe s (scene.logged probe s) (scene.logged never s) :=
  (Node.tracked_loggedAll (fun n _ => n.tracked_loggedInside) s).bind
    (fun _ s' => .done s' _) fun _ _ => ⟨_, rfl⟩

/-- A build of a scene that is not stopped is the build that nothing stops. -/
theorem Scene.build_eq_never {scene : Scene α} {s : Site α ω}
    (h : ∀ r, scene.build probe s ≠ .ok (false, r)) :
    scene.build probe s = scene.build never s := by
  rw [← scene.result_logged, ← scene.result_logged]
  exact (scene.tracked_logged s).follows.result_eq fun r hr => h r (scene.result_logged s ▸ hr)

/-! ## Trees and scenes -/

/-- What is known of the builds `x` and `y` of one thing from one site, where the probe decides how
    long the first goes on and nothing stops the second. -/
structure StopsCleanly (probe : Nat → Bool) (s : Site α ω)
    (x y : Logged α ω (Bool × β × Site α ω)) : Prop where
  /-- What becomes of the site is the effect of one event after another. In particular, the
      answers of the polls are those of the probe in order, and all polls are counted. -/
  accounted : Accounted probe s x
  /-- The same holds for the build that is never stopped. -/
  accounted_never : Accounted never s y
  /-- The build tells that it was stopped exactly if some poll of its own said so. -/
  stopped_iff : (∃ r, x.result = .ok (false, r)) ↔ true ∈ answers x.log
  /-- Such a poll is the last event. -/
  eq_nil_of_stop : ∀ before c after, x.log = before ++ .poll true c :: after → after = []
  /-- If a poll is the first at which the probe would stop the build that is never stopped, then
      this is what the build does up to that poll, and the cache that is left is the one that the
      poll finds. -/
  stopped : ∀ before c after, y.log = before ++ .poll false c :: after →
    (∀ i < (answers before).length, probe (s.polls + i) = false) →
    probe (s.polls + (answers before).length) = true →
    x.log = before ++ [.poll true c] ∧ ∃ z s', x.result = .ok (false, z, s') ∧ s'.cache = c
  /-- If the probe would stop it at none of its polls, the build is the one that is never
      stopped. -/
  eq_never : (∀ i < (answers y.log).length, probe (s.polls + i) = false) → x = y

/-- There is one poll at which the probe stops a build first. -/
theorem eq_of_first_stop {s s' : Site α ω} {before after before' after' : List (Event α ω)}
    {c c' : Cache α ω}
    (heq : before ++ .poll false c :: after = before' ++ .poll false c' :: after')
    (hgoes : s.Goes probe (before' ++ [.poll true c']) s')
    (hbefore : ∀ i < (answers before).length, probe (s.polls + i) = false)
    (hstop : probe (s.polls + (answers before).length) = true) : before = before' ∧ c = c' := by
  rcases List.append_eq_append_iff.1 heq with ⟨es, rfl, hes⟩ | ⟨es, rfl, hes⟩ <;> cases es with
  | nil =>
    cases hes
    exact ⟨by simp, rfl⟩
  | cons e es => ?_
  · -- The probe would have let the poll pass at which it stops the build first.
    cases hes
    rw [List.append_assoc, List.cons_append] at hgoes
    rw [hgoes.answer_eq] at hstop
    cases hstop
  · -- The probe would have stopped the build before.
    cases hes
    have hlt : (answers before').length < (answers (before' ++ .poll false c' :: es)).length := by
      rw [answers_append, List.length_append]
      exact Nat.lt_add_of_pos_right (Nat.succ_pos _)
    have hgo := hbefore _ hlt
    rw [hgoes.answer_eq] at hgo
    cases hgo

/-- A build that follows the one that is never stopped is stopped cleanly. -/
theorem Follows.stopsCleanly {s : Site α ω} {x y : Logged α ω (Bool × β × Site α ω)}
    (h : Follows x y) (hx : Accounted probe s x) (hy : Accounted never s y) :
    StopsCleanly probe s x y where
  accounted := hx
  accounted_never := hy
  stopped_iff := by
    cases h with
    | same _ hgo hdone =>
      refine ⟨fun ⟨r, hr⟩ => ?_, fun hstop => absurd hstop hgo⟩
      exact absurd (hdone _ hr) Bool.false_ne_true
    | cut _ _ hx =>
      subst hx
      exact ⟨fun _ => by simp [answers], fun _ => ⟨_, rfl⟩⟩
  eq_nil_of_stop before c after hlog := by
    have hmem : true ∈ answers (before ++ .poll true c :: after) := by simp [answers]
    cases h with
    | same _ hgo _ => exact absurd (hlog ▸ hmem) hgo
    | @cut before' after' c' z t hgo _ hx =>
      subst hx
      rcases List.append_eq_append_iff.1 hlog with ⟨es, rfl, hes⟩ | ⟨es, rfl, hes⟩ <;> cases es with
      | nil =>
        cases hes
        rfl
      | cons e es => ?_
      · exact absurd (List.cons.inj hes).2.symm (by simp)
      · -- The build would have been stopped before.
        cases hes
        exact absurd (by simp [answers]) hgo
  stopped before c after hlog hbefore hstop := by
    obtain ⟨s', hgoes, hsite⟩ := hx
    cases h with
    | same hxy _ _ =>
      rw [hxy, hlog] at hgoes
      rw [hgoes.answer_eq] at hstop
      cases hstop
    | @cut before' after' c' z t _ hlog' hx =>
      subst hx
      obtain rfl : t = s' := hsite _ rfl
      obtain ⟨rfl, rfl⟩ := eq_of_first_stop (hlog.symm.trans hlog') hgoes hbefore hstop
      exact ⟨rfl, z, t, rfl, hgoes.cache_eq⟩
  eq_never hgo := by
    obtain ⟨s', hgoes, _⟩ := hx
    cases h with
    | same hxy _ _ => exact hxy
    | @cut before after c z t _ hlog hx =>
      subst hx
      have hstop := hgoes.answer_eq
      rw [hgo] at hstop
      · cases hstop
      · rw [hlog, answers_append, List.length_append]
        exact Nat.lt_add_of_pos_right (Nat.succ_pos _)

/-- As many polls are counted as parts are visited, and one more if the build was stopped. -/
theorem polls_eq_visits {s s' : Site α ω} {es : List (Event α ω)} {done : Bool}
    (hgoes : s.Goes probe es s') (horderly : Orderly es)
    (hdone : done = false ↔ true ∈ answers es) :
    s'.polls = s.polls + visits es + if done then 0 else 1 := by
  rw [hgoes.polls_eq.1, horderly.length_answers, ← Nat.add_assoc]
  cases done <;> simp_all

/-- What a build that is tracked counts, and how it is stopped. -/
theorem Tracked.stopsCleanly_and_polls_eq {s : Site α ω} {x y : Logged α ω (Bool × β × Site α ω)}
    (h : Tracked probe s x y) (h' : Tracked never s y y) :
    StopsCleanly probe s x y ∧ ∀ done z s', x.result = .ok (done, z, s') →
      s'.polls = s.polls + visits x.log + if done then 0 else 1 := by
  have hclean := h.follows.stopsCleanly h.accounted h'.accounted
  refine ⟨hclean, fun done z s' hres => ?_⟩
  obtain ⟨t, hgoes, hsite⟩ := h.accounted
  obtain rfl : s' = t := hsite _ hres
  refine polls_eq_visits hgoes h.orderly ?_
  rw [← hclean.stopped_iff, hres]
  exact ⟨fun hdone => ⟨(z, s'), hdone ▸ rfl⟩, fun ⟨_, hr⟩ => (Prod.ext_iff.1 (Except.ok.inj hr)).1⟩

/-- Every build of a tree or a scene that the probe stops is the beginning of the build that nothing
    stops. It is stopped exactly if a poll of its own says so, which is then the last event, and it
    leaves the cache that this poll finds. Each poll before is for one part below the root (in a
    scene, for one part), which is visited right after it, so that there are as many polls as parts
    visited, and one more if the build is stopped. -/
theorem stops_cleanly (probe : Nat → Bool) :
    (∀ (n : Node α) (s : Site α ω),
      (n.logged probe s).result = n.build probe s ∧
        StopsCleanly probe s (n.logged probe s) (n.logged never s) ∧
        ∃ es, (n.logged probe s).log = .visit n :: es ∧ Orderly es ∧
          ∀ done n' s', n.build probe s = .ok (done, n', s') →
            s'.polls = s.polls + visits es + if done then 0 else 1) ∧
      ∀ (scene : Scene α) (s : Site α ω),
        (scene.logged probe s).result = scene.build probe s ∧
          StopsCleanly probe s (scene.logged probe s) (scene.logged never s) ∧
          Orderly (scene.logged probe s).log ∧
          ∀ done scene' s', scene.build probe s = .ok (done, scene', s') →
            s'.polls = s.polls + visits (scene.logged probe s).log + if done then 0 else 1 := by
  refine ⟨fun n s => ⟨n.result_logged s, ?_⟩, fun scene s => ⟨scene.result_logged s, ?_⟩⟩
  · have hinside (probe : Nat → Bool) :
        Tracked probe s (n.loggedInside probe s) (n.loggedInside never s) :=
      n.tracked_loggedInside s
    obtain ⟨_, hpolls⟩ := (hinside probe).stopsCleanly_and_polls_eq (hinside never)
    have hfollows : Follows (n.logged probe s) (n.logged never s) := n.follows_logged s
    rw [n.logged_eq, n.logged_eq] at hfollows
    rw [← n.result_logged s, n.logged_eq, n.logged_eq]
    exact ⟨hfollows.stopsCleanly (hinside probe).accounted.after_visit
      (hinside never).accounted.after_visit, _, rfl, (hinside probe).orderly, hpolls⟩
  · have hall (probe : Nat → Bool) :
        Tracked probe s (scene.logged probe s) (scene.logged never s) :=
      scene.tracked_logged s
    obtain ⟨hclean, hpolls⟩ := (hall probe).stopsCleanly_and_polls_eq (hall never)
    rw [scene.result_logged] at hpolls
    exact ⟨hclean, (hall probe).orderly, hpolls⟩

end Solids
