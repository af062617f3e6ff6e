import OpenPubusb.NameParsing
import OpenPubusb.PolicyFields
import OpenPubusb.Rest

/-! Requests of the REST front end over whole runs: a request is at most one call of the
service, one that is refused for its verb or its body is none, and the path of one that
succeeds is the only path of its resource. -/

namespace OpenPubusb

open Hoare

namespace Rest

variable (c : Decoders)

/-- The call of the service that a request comes to, or the answer that it gets without one. -/
def Request.call : Request → Except RestError (Option Op)
  | .createTopic project topic contentType body => do
    let labels ← createTopicLabels c contentType body
    pure (some (.createTopic (topicName project topic) labels none none false false))
  | .deleteTopic project topic => .ok (some (.deleteTopic (topicName project topic)))
  | .topicPost project raw body =>
    if (splitVerb raw).2 = some "publish" then do
      let json ← parseBodyLenient c body
      let messages ← publishMessages c json
      pure (some (.publish (topicName project (splitVerb raw).1) messages))
    else .error (noSuchMethod raw)
  | .createSubscription project sub body => do
    let requested ← requestedSubscription c body
    pure (some (.createSubscription (subName project sub) requested.topic
      (createOptionsFromProto requested)))
  | .deleteSubscription project sub => .ok (some (.deleteSubscription (subName project sub)))
  | .subscriptionPost project raw body =>
    let fullName := subName project (splitVerb raw).1
    if (splitVerb raw).2 = some "pull" then do
      let json ← parseBodyLenient c body
      pure (some (.pull fullName (pullMaxMessages c json)))
    else if (splitVerb raw).2 = some "acknowledge" then do
      let json ← parseBodyLenient c body
      pure (some (.acknowledge fullName ((c.ackIdsBody json).toOption.getD [])))
    else if (splitVerb raw).2 = some "modifyAckDeadline" then do
      let json ← parseBodyLenient c body
      let body ← invalid "body" (c.modifyAckDeadlineBody json)
      pure (some (.modifyAckDeadline fullName body.1 body.2))
    else if (splitVerb raw).2 = some "modifyPushConfig" then do
      let json ← parseBodyLenient c body
      let pushConfig ← pushConfigOfBody c json
      pure (some (.modifyPushConfig fullName pushConfig))
    else .error (noSuchMethod raw)
  | .other => .error (.unimplemented "this REST method is not implemented by this server")
  | _ => .ok none

def Request.inputs (nowMs : Int) (r : Request) : List Input :=
  match r.call c with
  | .ok (some op) => [⟨nowMs, op⟩]
  | _ => []

/-- The kind, the project and the id of the resource that the path names. -/
def Request.target : Request → Option (String × String × String)
  | .createTopic project topic _ _ => some ("topics", project, topic)
  | .getTopic project topic => some ("topics", project, topic)
  | .deleteTopic project topic => some ("topics", project, topic)
  | .topicPost project raw _ => some ("topics", project, (splitVerb raw).1)
  | .createSubscription project sub _ => some ("subscriptions", project, sub)
  | .getSubscription project sub => some ("subscriptions", project, sub)
  | .deleteSubscription project sub => some ("subscriptions", project, sub)
  | .subscriptionPost project raw _ => some ("subscriptions", project, (splitVerb raw).1)
  | _ => none

/-- What the server is asked: a request, or a call that came another way. -/
inductive Event where
  | request (nowMs : Int) (r : Request)
  | call (i : Input)

/-- The engine that a program leaves, whether or not it fails. -/
def after {ε α : Type} (m : EStateM ε Engine α) (s : Engine) : Engine :=
  match m s with
  | .ok _ t => t
  | .error _ t => t

def serve (s : Engine) : Event → Engine
  | .request nowMs r => after (handle c nowMs r) s
  | .call i => (step s i).2

def reach (es : List Event) : Engine := es.foldl (serve c) start

def Event.inputs : Event → List Input
  | .request nowMs r => r.inputs c nowMs
  | .call i => [i]

def calls (es : List Event) : List Input := es.flatMap (Event.inputs c)

variable {c}

section Calls

variable {α β : Type} {s t : Engine} {nowMs : Int} {op : Op}

theorem after_bind_pure {ε : Type} (m : EStateM ε Engine α) (f : α → β) (s : Engine) :
    after (m >>= fun a => pure (f a)) s = after m s := by
  show after (EStateM.bind m fun a => EStateM.pure (f a)) s = after m s
  unfold after EStateM.bind
  cases m s <;> rfl

theorem after_domain (m : EngineM α) (s : Engine) : after (domain m) s = after m s := by
  unfold after domain
  cases m s <;> rfl

theorem after_perform (nowMs : Int) (op : Op) (s : Engine) :
    after (perform nowMs op) s = (step s ⟨nowMs, op⟩).2 := by
  unfold after step
  cases perform nowMs op s <;> rfl

theorem after_call {m : EngineM α} {f : α → Body} {g : α → Reply}
    (h : perform nowMs op = m >>= fun a => pure (g a)) :
    after (domain m >>= fun a => pure (f a)) s = (step s ⟨nowMs, op⟩).2 := by
  rw [after_bind_pure, after_domain, ← after_perform, h, after_bind_pure]

theorem after_read {x : Engine → Result α} {f : α → Body} :
    after (get >>= fun s => domain (liftResult (x s)) >>= fun a => pure (f a)) s = s := by
  show after (domain (liftResult (x s)) >>= fun a => pure (f a)) s = s
  rw [after_bind_pure, after_domain]
  cases x s <;> rfl

theorem after_pull (name : String) (maxMessages : Int) :
    after (PubSubService.pull name maxMessages nowMs) s =
      (step s ⟨nowMs, .pull name maxMessages⟩).2 := by
  have hpull : PubSubService.pull name maxMessages nowMs =
      PubSubService.pullDelivered name maxMessages nowMs >>=
        fun r : SubscriptionRecord × List Delivered =>
        pure (r.2.map (.ofDelivered r.1.deadLetterTopic.isSome)) := rfl
  rw [hpull, after_bind_pure, ← after_perform]
  have hperform : perform nowMs (.pull name maxMessages) =
      PubSubService.pullDelivered name maxMessages nowMs >>=
        fun r : SubscriptionRecord × List Delivered => pure (.delivered r.1.id r.2) := rfl
  rw [hperform, after_bind_pure]

/-- What becomes of a request. -/
inductive Served (c : Decoders) (nowMs : Int) (r : Request) (s : Engine) : Prop
  | refused (e : RestError) (hcall : r.call c = .error e) (hrun : handle c nowMs r s = .error e s)
  | read (hcall : r.call c = .ok none) (hrun : after (handle c nowMs r) s = s)
  | called (op : Op) (hcall : r.call c = .ok (some op))
      (hrun : after (handle c nowMs r) s = (step s ⟨nowMs, op⟩).2)

theorem served_topicPost (project raw : String) (body : List UInt8) :
    Served c nowMs (.topicPost project raw body) s := by
  by_cases hv : (splitVerb raw).2 = some "publish"
  · cases hj : parseBodyLenient c body with
    | error e =>
      refine .refused e ?_ ?_
      · simp only [Request.call, if_pos hv, hj]
        rfl
      · simp only [handle, topicPost, if_pos hv, hj]
        rfl
    | ok json =>
      cases hm : publishMessages c json with
      | error e =>
        refine .refused e ?_ ?_
        · simp only [Request.call, if_pos hv, hj]
          show (publishMessages c json >>= _) = _
          rw [hm]
          rfl
        · simp only [handle, topicPost, if_pos hv, hj, lift, pure_bind, publish, hm]
          rfl
      | ok messages =>
        refine .called (.publish (topicName project (splitVerb raw).1) messages) ?_ ?_
        · simp only [Request.call, if_pos hv, hj]
          show (publishMessages c json >>= _) = _
          rw [hm]
          rfl
        · simp only [handle, topicPost, if_pos hv, hj, lift, pure_bind, publish, hm]
          exact after_call rfl
  · refine .refused (noSuchMethod raw) ?_ ?_
    · simp only [Request.call, if_neg hv]
    · simp only [handle, topicPost, if_neg hv]
      rfl

theorem served_post {r : Request} (body : List UInt8)
    {k : c.Json → Except RestError (Option Op)} {h : c.Json → RestM Body}
    (hcall : r.call c = parseBodyLenient c body >>= k)
    (hrun : handle c nowMs r = lift (parseBodyLenient c body) >>= h)
    (hserved : ∀ json, (∃ e, k json = .error e ∧ h json s = .error e s) ∨
      ∃ op, k json = .ok (some op) ∧ after (h json) s = (step s ⟨nowMs, op⟩).2) :
    Served c nowMs r s := by
  cases hj : parseBodyLenient c body with
  | error e =>
    refine .refused e ?_ ?_
    · rw [hcall, hj]
      rfl
    · rw [hrun, hj]
      rfl
  | ok json =>
    have hk : r.call c = k json := by
      rw [hcall, hj]
      rfl
    have hh : handle c nowMs r = h json := by
      rw [hrun, hj, lift, pure_bind]
    rcases hserved json with ⟨e, hke, hhe⟩ | ⟨op, hko, hho⟩
    · exact .refused e (hk.trans hke) (by rw [hh, hhe])
    · exact .called op (hk.trans hko) (by rw [hh, hho])

theorem served_subscriptionPost (project raw : String) (body : List UInt8) :
    Served c nowMs (.subscriptionPost project raw body) s := by
  by_cases hpull : (splitVerb raw).2 = some "pull"
  · refine served_post body (if_pos hpull) (if_pos hpull) fun json => Or.inr ⟨_, rfl, ?_⟩
    rw [pull, after_bind_pure, after_domain, after_pull]
  by_cases hack : (splitVerb raw).2 = some "acknowledge"
  · refine served_post body ((if_neg hpull).trans (if_pos hack))
      ((if_neg hpull).trans (if_pos hack)) fun json => Or.inr ⟨_, rfl, ?_⟩
    exact after_call rfl
  by_cases hmodify : (splitVerb raw).2 = some "modifyAckDeadline"
  · refine served_post body ((if_neg hpull).trans ((if_neg hack).trans (if_pos hmodify)))
      ((if_neg hpull).trans ((if_neg hack).trans (if_pos hmodify))) fun json => ?_
    cases hb : invalid "body" (c.modifyAckDeadlineBody json) with
    | error e =>
      refine Or.inl ⟨e, rfl, ?_⟩
      simp only [modifyAckDeadline, hb]
      rfl
    | ok body =>
      refine Or.inr ⟨_, rfl, ?_⟩
      simp only [modifyAckDeadline, hb, lift, pure_bind]
      exact after_call rfl
  by_cases hpush : (splitVerb raw).2 = some "modifyPushConfig"
  · refine served_post body
      ((if_neg hpull).trans ((if_neg hack).trans ((if_neg hmodify).trans (if_pos hpush))))
      ((if_neg hpull).trans ((if_neg hack).trans ((if_neg hmodify).trans (if_pos hpush))))
      fun json => ?_
    cases hb : pushConfigOfBody c json with
    | error e =>
      refine Or.inl ⟨e, rfl, ?_⟩
      simp only [modifyPushConfig, hb]
      rfl
    | ok pushConfig =>
      refine Or.inr ⟨_, rfl, ?_⟩
      simp only [modifyPushConfig, hb, lift, pure_bind]
      exact after_call rfl
  refine .refused (noSuchMethod raw) ?_ ?_
  · simp only [Request.call, if_neg hpull, if_neg hack, if_neg hmodify, if_neg hpush]
  · simp only [handle, subscriptionPost, if_neg hpull, if_neg hack, if_neg hmodify, if_neg hpush]
    rfl

theorem served (c : Decoders) (nowMs : Int) (r : Request) (s : Engine) : Served c nowMs r s := by
  cases r with
  | createTopic project topic contentType body =>
    cases hx : createTopicLabels c contentType body with
    | error e =>
      refine .refused e ?_ ?_
      · simp only [Request.call, hx]
        rfl
      · simp only [handle, createTopic, hx]
        rfl
    | ok labels =>
      refine .called (.createTopic (topicName project topic) labels none none false false) ?_ ?_
      · simp only [Request.call, hx]
        rfl
      · simp only [handle, createTopic, hx, lift, pure_bind]
        exact after_call rfl
  | createSubscription project sub body =>
    cases hx : requestedSubscription c body with
    | error e =>
      refine .refused e ?_ ?_
      · simp only [Request.call, hx]
        rfl
      · simp only [handle, createSubscription, hx]
        rfl
    | ok requested =>
      refine .called (.createSubscription (subName project sub) requested.topic
        (createOptionsFromProto requested)) ?_ ?_
      · simp only [Request.call, hx]
        rfl
      · simp only [handle, createSubscription, hx, lift, pure_bind]
        exact after_call rfl
  | topicPost project raw body => exact served_topicPost project raw body
  | subscriptionPost project raw body => exact served_subscriptionPost project raw body
  | deleteTopic project topic =>
    exact .called (.deleteTopic (topicName project topic)) rfl (after_call rfl)
  | deleteSubscription project sub =>
    exact .called (.deleteSubscription (subName project sub)) rfl (after_call rfl)
  | getTopic project topic => exact .read rfl after_read
  | listTopics project => exact .read rfl after_read
  | getSubscription project sub => exact .read rfl after_read
  | listSubscriptions project => exact .read rfl after_read
  | other => exact .refused _ rfl rfl

theorem after_handle (c : Decoders) (nowMs : Int) (r : Request) (s : Engine) :
    after (handle c nowMs r) s = Run.final step s (r.inputs c nowMs) := by
  cases served c nowMs r s with
  | refused e hcall hrun =>
    have hin : r.inputs c nowMs = [] := by simp only [Request.inputs, hcall]
    rw [hin, after, hrun]
    rfl
  | read hcall hrun =>
    have hin : r.inputs c nowMs = [] := by simp only [Request.inputs, hcall]
    rw [hin, hrun]
    rfl
  | called op hcall hrun =>
    have hin : r.inputs c nowMs = [⟨nowMs, op⟩] := by simp only [Request.inputs, hcall]
    rw [hin, hrun]
    rfl

theorem foldl_serve (c : Decoders) (es : List Event) (s : Engine) :
    es.foldl (serve c) s = Run.final step s (calls c es) := by
  induction es generalizing s with
  | nil => rfl
  | cons e es ih =>
    have hcalls : calls c (e :: es) = e.inputs c ++ calls c es := List.flatMap_cons
    rw [List.foldl_cons, ih, hcalls, Run.final_append]
    cases e with
    | request nowMs r =>
      rw [serve, after_handle]
      rfl
    | call i => rfl

end Calls

section Names

theorem checkName_of_parse {kind name : String} {n : ResourceName kind}
    (h : ResourceName.parse kind name = .ok n) : checkName kind name = .ok () := by
  cases hc : checkName kind name with
  | ok u => rfl
  | error e =>
    rw [ResourceName.parse_eq_error.mpr hc] at h
    cases h

theorem checkName_of_topic {name : String} {n : TopicName} (h : TopicName.parse name = .ok n)
    (hs : name ≠ deletedTopic) : checkName "topics" name = .ok () := by
  unfold TopicName.parse at h
  rw [dif_neg hs] at h
  split at h
  · assumption
  · cases h

/-- Every stored subscription has a name that its parser accepts. -/
structure NamesChecked (s : Engine) : Prop where
  consistent : Consistent s.kv
  healthy : s.kv.Healthy
  names : ∀ {id r}, s.kv.subs.get id = some r → checkName "subscriptions" r.name = .ok ()

theorem NamesChecked.step {s : Engine} (h : NamesChecked s) (i : Input) :
    NamesChecked (OpenPubusb.step s i).2 := by
  have hev := (step_path i h.consistent h.healthy).evolves h.consistent
  refine ⟨hev.consistent, hev.healthy h.healthy, fun {id r'} hr' => ?_⟩
  cases step_record h.consistent h.healthy i hr' with
  | @rewritten r _ hr hw =>
    have hname : r'.name = r.name := congrArg (fun k => k.2.1) hw.identity_eq
    rw [hname]
    exact h.names hr
  | orphaned _ hr =>
    have hname := h.names hr
    exact hname
  | created _ hopts =>
    obtain ⟨n, hn, _⟩ := bind_eq_ok.mp hopts
    exact checkName_of_parse hn

theorem namesChecked_final (is : List Input) : NamesChecked (Run.final step start is) := by
  refine Run.inv_final (C := fun _ => True) (P := NamesChecked) (fun s i h _ => h.step i)
    ⟨consistent_empty, fun _ => rfl, fun h => ?_⟩ (fun _ _ => trivial)
  cases h

theorem NamesChecked.found {s : Engine} (h : NamesChecked s) {name : String}
    {r : SubscriptionRecord} (hr : SubscriptionStore.get s.kv name = .ok r) :
    checkName "subscriptions" name = .ok () := by
  obtain ⟨id, hn, hs⟩ := get_eq_ok hr
  rw [← h.consistent.subs.name_eq hn hs]
  exact h.names hs

theorem topicName_eq (project topic : String) :
    topicName project topic = fullNameOf "topics" project topic := by
  show "projects/" ++ project ++ "/topics/" ++ topic = _
  apply String.toList_inj.mp
  simp [fullNameOf]

theorem subName_eq (project sub : String) :
    subName project sub = fullNameOf "subscriptions" project sub := by
  show "projects/" ++ project ++ "/subscriptions/" ++ sub = _
  apply String.toList_inj.mp
  simp [fullNameOf]

theorem topicName_ne_deleted (project topic : String) : topicName project topic ≠ deletedTopic := by
  intro h
  have hlist : (fullNameOf "topics" project topic).toList = deletedTopic.toList := by
    rw [← topicName_eq, h]
  rw [toList_fullNameOf, show "projects".toList = 'p' :: "rojects".toList by decide,
    show deletedTopic.toList = '_' :: "deleted-topic_".toList by decide] at hlist
  exact absurd (List.cons.inj hlist).1 (by decide)

/-- A name has no other reading as a project and an id once one reading is in order. -/
theorem fullNameOf_unique {kind project id project' id' : String} (hkind : '/' ∉ kind.toList)
    (hproject : '/' ∉ project.toList) (hid : '/' ∉ id.toList)
    (h : fullNameOf kind project' id' = fullNameOf kind project id) :
    project' = project ∧ id' = id := by
  have hcount : ((fullNameOf kind project' id').toList).count '/' =
      ((fullNameOf kind project id).toList).count '/' := by rw [h]
  simp only [toList_fullNameOf, List.count_append, List.count_cons_self,
    List.count_eq_zero.mpr hproject, List.count_eq_zero.mpr hid] at hcount
  have hproject' : '/' ∉ project'.toList := List.count_eq_zero.mp (by omega)
  have hid' : '/' ∉ id'.toList := List.count_eq_zero.mp (by omega)
  have hsplit := splitOn_fullNameOf hkind hproject' hid'
  rw [h, splitOn_fullNameOf hkind hproject hid] at hsplit
  simp only [List.cons.injEq, and_true, true_and, String.toList_inj] at hsplit
  exact ⟨hsplit.1.symm, hsplit.2.symm⟩

end Names

section Success

def Needs {ε σ α : Type} (m : EStateM ε σ α) (s : σ) (P : Prop) : Prop :=
  ∀ a t, m s = .ok a t → P

variable {ε σ α β : Type} {s : σ} {P : Prop}

theorem Needs.bind {m : EStateM ε σ α} {f : α → EStateM ε σ β}
    (h : ∀ a t, m s = .ok a t → Needs (f a) t P) : Needs (m >>= f) s P := by
  intro b u hb
  have hrun : EStateM.bind m f s = .ok b u := hb
  unfold EStateM.bind at hrun
  cases hm : m s with
  | error e t =>
    rw [hm] at hrun
    cases hrun
  | ok a t =>
    rw [hm] at hrun
    exact h a t hm b u hrun

theorem Needs.first {m : EStateM ε σ α} {f : α → EStateM ε σ β} (h : Needs m s P) :
    Needs (m >>= f) s P :=
  Needs.bind fun a t hm _ _ _ => h a t hm

theorem Needs.getBind {f : σ → EStateM ε σ β} (h : Needs (f s) s P) : Needs (get >>= f) s P :=
  fun a t hm => h a t hm

theorem Needs.result {x : Result α} (h : ∀ a, x = .ok a → P) : Needs (liftResult x) s P := by
  intro a t hm
  cases x with
  | error e => cases hm
  | ok b => exact h b rfl

theorem Needs.resultBind {x : Result α} {f : α → EStateM Error σ β} (h : ∀ a, Needs (f a) s P) :
    Needs (liftResult x >>= f) s P := by
  refine Needs.bind fun a t hm => ?_
  cases x with
  | error e => cases hm
  | ok b =>
    cases hm
    exact h a

theorem Needs.liftBind {x : Except RestError α} {f : α → RestM β} {s : Engine}
    (h : ∀ a, Needs (f a) s P) : Needs (lift x >>= f) s P := by
  refine Needs.bind fun a t hm => ?_
  cases x with
  | error e => cases hm
  | ok b =>
    cases hm
    exact h a

theorem Needs.domain {m : EngineM α} {s : Engine} (h : Needs m s P) :
    Needs (Rest.domain m) s P := by
  intro a t hm
  unfold Rest.domain at hm
  cases hrun : m s with
  | error e u =>
    rw [hrun] at hm
    cases hm
  | ok b u => exact h b u hrun

theorem Needs.onKv {m : KvM α} {s : Engine} (h : Needs m s.kv P) : Needs (onKv m) s P := by
  intro a t hm
  unfold OpenPubusb.onKv Hoare.focus at hm
  cases hrun : m s.kv with
  | error e u =>
    rw [hrun] at hm
    cases hm
  | ok b u => exact h b u hrun

theorem parsed_of_get {kv : Kv} {name : String} (hs : name ≠ deletedTopic) {r : TopicRecord}
    (h : TopicStore.get kv name = .ok r) : checkName "topics" name = .ok () := by
  obtain ⟨id, hid, _, _⟩ := topicGet_eq_ok h
  obtain ⟨n, hn, _⟩ := bind_eq_ok.mp hid
  exact checkName_of_topic hn hs

variable {c : Decoders} {nowMs : Int} {s : Engine} {name kind project id : String}

theorem needs_createTopic (hs : name ≠ deletedTopic) (labels : SortedMap String String)
    (retention : Option Int) (kms : Option String) (schema ingestion : Bool) :
    Needs (PubSubService.createTopic name labels retention kms schema ingestion) s
      (checkName "topics" name = .ok ()) := by
  refine Needs.onKv (Needs.first (Needs.result fun u hu => ?_))
  obtain ⟨n, hn, _⟩ := bind_eq_ok.mp hu
  exact checkName_of_topic hn hs

theorem needs_createSubscription (topic : String) (opts : CreateSubscriptionOptions) :
    Needs (PubSubService.createSubscription name topic opts nowMs) s
      (checkName "subscriptions" name = .ok ()) := by
  refine Needs.onKv (Needs.getBind (Needs.resultBind fun t => ?_))
  refine Needs.first (Needs.result fun n hn => ?_)
  obtain ⟨parsed, hparsed, _⟩ := bind_eq_ok.mp hn
  exact checkName_of_parse hparsed

theorem NamesChecked.needs_pull (h : NamesChecked s) (maxMessages : Int) :
    Needs (PubSubService.pull name maxMessages nowMs) s
      (checkName "subscriptions" name = .ok ()) :=
  Needs.first (Needs.resultBind fun _ => Needs.first (Needs.getBind (Needs.first
    (Needs.result fun _ => h.found))))

/-- A request that succeeds has a path that the parser of its kind accepts. -/
theorem NamesChecked.needs (h : NamesChecked s) {r : Request}
    (ht : r.target = some (kind, project, id)) :
    Needs (handle c nowMs r) s (checkName kind (fullNameOf kind project id) = .ok ()) := by
  cases r with
  | listTopics => cases ht
  | listSubscriptions => cases ht
  | other => cases ht
  | createTopic project topic contentType body =>
    cases ht
    rw [← topicName_eq]
    exact Needs.liftBind fun labels =>
      (Needs.domain (needs_createTopic (topicName_ne_deleted _ _) _ _ _ _ _)).first
  | getTopic project topic =>
    cases ht
    rw [← topicName_eq]
    exact Needs.getBind (Needs.domain (Needs.result fun _ =>
      parsed_of_get (topicName_ne_deleted _ _))).first
  | deleteTopic project topic =>
    cases ht
    rw [← topicName_eq]
    exact (Needs.domain (Needs.onKv (Needs.getBind (Needs.result fun _ =>
      parsed_of_get (topicName_ne_deleted _ _)).first))).first
  | topicPost project raw body =>
    cases ht
    rw [← topicName_eq]
    by_cases hv : (splitVerb raw).2 = some "publish"
    · simp only [handle, topicPost, if_pos hv]
      exact Needs.liftBind fun json => Needs.liftBind fun messages =>
        (Needs.domain (Needs.onKv (Needs.getBind (Needs.result fun _ =>
          parsed_of_get (topicName_ne_deleted _ _)).first))).first
    · simp only [handle, topicPost, if_neg hv]
      intro a t hm
      cases hm
  | createSubscription project sub body =>
    cases ht
    rw [← subName_eq]
    exact Needs.liftBind fun requested => (Needs.domain (needs_createSubscription _ _)).first
  | getSubscription project sub =>
    cases ht
    rw [← subName_eq]
    exact Needs.getBind (Needs.domain (Needs.result fun _ => h.found)).first
  | deleteSubscription project sub =>
    cases ht
    rw [← subName_eq]
    exact (Needs.domain (Needs.onKv (Needs.getBind (Needs.result fun _ => h.found).first))).first
  | subscriptionPost project raw body =>
    cases ht
    rw [← subName_eq]
    simp only [handle, subscriptionPost]
    split_ifs
    · exact Needs.liftBind fun json => (Needs.domain (h.needs_pull _)).first
    · exact Needs.liftBind fun json => (Needs.domain (Needs.getBind
        (Needs.result fun _ => h.found).first)).first
    · exact Needs.liftBind fun json => Needs.liftBind fun body => (Needs.domain (Needs.getBind
        (Needs.result fun _ => h.found).first)).first
    · exact Needs.liftBind fun json => Needs.liftBind fun pushConfig => (Needs.domain
        (Needs.onKv (Needs.getBind (Needs.result fun _ => h.found).first))).first
    · intro a t hm
      cases hm

theorem kind_no_slash {r : Request} (ht : r.target = some (kind, project, id)) :
    '/' ∉ kind.toList := by
  cases r <;> cases ht <;> decide

end Success

section Runs

variable (c)

/-- The server with both front ends runs the service: a request is one call at most, and one
that is refused for its verb or its body leaves no trace. A path that is served names its
resource by a project and an id in order, and no other path names it. -/
theorem rest_serves (es : List Event) (nowMs : Int) (r : Request) :
    reach c (es ++ [.request nowMs r]) =
        Run.final step start (calls c es ++ r.inputs c nowMs) ∧
      (∀ e, r.call c = .error e → handle c nowMs r (reach c es) = .error e (reach c es)) ∧
      ∀ kind project id, r.target = some (kind, project, id) →
        ∀ body t, handle c nowMs r (reach c es) = .ok body t →
          project ≠ "" ∧ '/' ∉ project.toList ∧ ValidId id ∧
            ∀ project' id', fullNameOf kind project' id' = fullNameOf kind project id →
              project' = project ∧ id' = id := by
  have hreach : reach c es = Run.final step start (calls c es) := foldl_serve c es start
  refine ⟨?_, fun e he => ?_, fun kind project id ht body t hok => ?_⟩
  · have hall : calls c (es ++ [.request nowMs r]) = calls c es ++ r.inputs c nowMs := by
      simp [calls, Event.inputs]
    rw [reach, foldl_serve, hall]
  · cases served c nowMs r (reach c es) with
    | refused e' hcall hrun =>
      rw [hcall, Except.error.injEq] at he
      rw [hrun, he]
    | read hcall =>
      rw [hcall] at he
      cases he
    | called op hcall =>
      rw [hcall] at he
      cases he
  · have hkind := kind_no_slash ht
    have hnames : NamesChecked (reach c es) := hreach ▸ namesChecked_final (calls c es)
    have hcheck := hnames.needs ht body t hok
    obtain ⟨p, i, hname, hne, hp, hi⟩ := (checkName_eq_ok hkind).mp hcheck
    obtain ⟨rfl, rfl⟩ := fullNameOf_unique hkind hp hi.no_slash hname
    exact ⟨hne, hp, hi, fun project' id' h => fullNameOf_unique hkind hp hi.no_slash h⟩

/-- Decoders that only meet requests without a body. -/
def noBody : Decoders where
  Json := Unit
  null := ()
  isNull _ := true
  fromSlice _ := .error "expected value at line 1 column 1"
  createTopicBody contentType _ := if contentType.isNone then .ok none else .error 415
  subscription _ := .error "expected value at line 1 column 1"
  publishBody _ := .error "invalid type: null, expected struct PublishRequestBody"
  pullBody _ := .error "invalid type: null, expected struct PullRequestBody"
  ackIdsBody _ := .error "invalid type: null, expected struct AcknowledgeRequestBody"
  modifyAckDeadlineBody _ := .error "invalid type: null, expected struct ModifyAckDeadlineRequestBody"
  modifyPushConfigBody _ := .error "invalid type: null, expected struct ModifyPushConfigRequestBody"
  base64 _ := .error "Invalid input length"

def answeredTopic : EStateM.Result RestError Engine Body → Option String
  | .ok (.topic record) _ => some record.name
  | _ => none

def createTop1 : Event := .request 0 (.createTopic "p" "top1" none [])

/-- A topic is created, and got. -/
theorem rest_serves_topic : ∃ body t,
    handle noBody 0 (.getTopic "p" "top1") (reach noBody [createTop1]) = .ok body t ∧
    answeredTopic (handle noBody 0 (.getTopic "p" "top1") (reach noBody [createTop1])) =
      some "projects/p/topics/top1" ∧
    reach noBody ([createTop1] ++ [.request 0 (.getTopic "p" "top1")]) =
      Run.final step start (calls noBody [createTop1] ++ (Request.getTopic "p" "top1").inputs noBody 0) ∧
    ValidId "top1" ∧ ∀ project' id', fullNameOf "topics" project' id' = fullNameOf "topics" "p" "top1" →
      project' = "p" ∧ id' = "top1" := by
  have hanswer : answeredTopic (handle noBody 0 (.getTopic "p" "top1") (reach noBody [createTop1])) =
      some "projects/p/topics/top1" := by
    decide +kernel
  obtain ⟨hreach, _, hnames⟩ := rest_serves noBody [createTop1] 0 (.getTopic "p" "top1")
  cases hrun : handle noBody 0 (.getTopic "p" "top1") (reach noBody [createTop1]) with
  | error e t =>
    rw [hrun] at hanswer
    cases hanswer
  | ok body t =>
    obtain ⟨_, _, hid, honly⟩ := hnames "topics" "p" "top1" rfl body t hrun
    rw [hrun] at hanswer
    exact ⟨body, t, rfl, hanswer, hreach, hid, honly⟩

end Runs

end Rest

end OpenPubusb
