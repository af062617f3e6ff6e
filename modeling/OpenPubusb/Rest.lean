import OpenPubusb.Push
import OpenPubusb.SubscriptionProto

/-! The REST front end: the name and the verb of a path, the body of the request, and the one
call of the service that each endpoint makes. Decoding a body is left to the JSON, base64 and
HTTP libraries. -/

namespace OpenPubusb

/-- The canonical status name and the HTTP status of an error. -/
def Error.code : Error → String × Nat
  | .notFound _ => ("NOT_FOUND", 404)
  | .alreadyExists _ => ("ALREADY_EXISTS", 409)
  | .invalidArgument _ _ => ("INVALID_ARGUMENT", 400)
  | .failedPrecondition _ => ("FAILED_PRECONDITION", 400)
  | .resourceExhausted _ => ("RESOURCE_EXHAUSTED", 429)
  | .unavailable _ => ("UNAVAILABLE", 503)
  | .unimplemented _ => ("UNIMPLEMENTED", 501)
  | .internal _ => ("INTERNAL", 500)

namespace Rest

/-- `rejected` is an answer of the extractor that reads the body of `create_topic`. -/
inductive RestError where
  | domain (e : Error)
  | unimplemented (message : String)
  | rejected (status : Nat)

structure ErrorDetail where
  code : Nat
  message : String
  status : String

def RestError.intoResponse : RestError → ErrorDetail
  | .domain e =>
    let message :=
      match e with
      | .internal _ => "internal error"
      | .notFound resource => s!"{resource} not found"
      | .alreadyExists resource => s!"{resource} already exists"
      | .invalidArgument field message => s!"{field}: {message}"
      | .failedPrecondition message => message
      | .resourceExhausted message => message
      | .unavailable message => message
      | .unimplemented method => s!"{method} is not implemented"
    ⟨e.code.2, message, e.code.1⟩
  | .unimplemented message => ⟨501, message, "UNIMPLEMENTED"⟩
  | .rejected status => ⟨status, "", ""⟩

theorem message_intoResponse (e : Error) :
    (RestError.domain e).intoResponse.message = (toStatus e).message := by
  cases e <;> rfl

structure PublishMessageBody where
  data : String
  attributes : Attributes
  orderingKey : String

/-- What the libraries make of a body, field by field of the request types. -/
structure Decoders where
  Json : Type
  null : Json
  isNull : Json → Bool
  fromSlice : List UInt8 → Except String Json
  createTopicBody : Option String → List UInt8 → Except Nat (Option (SortedMap String String))
  subscription : List UInt8 → Except String Proto.Subscription
  publishBody : Json → Except String (List PublishMessageBody)
  pullBody : Json → Except String Int
  ackIdsBody : Json → Except String (List String)
  modifyAckDeadlineBody : Json → Except String (List String × Int)
  modifyPushConfigBody : Json → Except String (Option Proto.PushConfig)
  base64 : String → Except String (List UInt8)

structure ReceivedMessage where
  ackId : String
  data : List UInt8
  attributes : Attributes
  messageId : String
  publishTime : Timestamp
  orderingKey : String
  deliveryAttempt : Int

inductive Body where
  | topic (record : TopicRecord)
  | topics (records : List TopicRecord) (nextPageToken : String)
  | published (messageIds : List String)
  | subscription (sub : Proto.Subscription)
  | subscriptions (subs : List Proto.Subscription) (nextPageToken : String)
  | pulled (receivedMessages : List ReceivedMessage)
  | empty

abbrev RestM := EStateM RestError Engine

def lift {α : Type} : Except RestError α → RestM α
  | .ok a => pure a
  | .error e => throw e

def domain {α : Type} (m : EngineM α) : RestM α := fun s =>
  match m s with
  | .ok a t => .ok a t
  | .error e t => .error (.domain e) t

def invalid {α : Type} (field : String) : Except String α → Except RestError α
  | .ok a => .ok a
  | .error e => .error (.domain (.invalidArgument field e))

def topicName (project topic : String) : String := s!"projects/{project}/topics/{topic}"

def subName (project sub : String) : String := s!"projects/{project}/subscriptions/{sub}"

def splitVerb (raw : String) : String × Option String :=
  match raw.toList.dropWhile (· ≠ ':') with
  | [] => (raw, none)
  | _ :: verb => (String.ofList (raw.toList.takeWhile (· ≠ ':')), some (String.ofList verb))

def noSuchMethod (raw : String) : RestError :=
  .unimplemented s!"no such method on this resource: {debugStr raw}"

variable (c : Decoders)

def parseBodyLenient (bytes : List UInt8) : Except RestError c.Json :=
  if bytes.isEmpty then .ok c.null
  else
    match c.fromSlice bytes with
    | .ok json => .ok json
    | .error e => .error (.domain (.invalidArgument "body" s!"invalid JSON: {e}"))

def createTopicLabels (contentType : Option String) (body : List UInt8) :
    Except RestError (SortedMap String String) :=
  match c.createTopicBody contentType body with
  | .ok labels => .ok (labels.getD ∅)
  | .error status => .error (.rejected status)

def createTopic (project topic : String) (contentType : Option String) (body : List UInt8) :
    RestM Body := do
  let labels ← lift (createTopicLabels c contentType body)
  let record ← domain (PubSubService.createTopic (topicName project topic) labels none none
    false false)
  pure (.topic record)

def getTopic (project topic : String) : RestM Body := do
  let s ← get
  let record ← domain (liftResult (TopicStore.get s.kv (topicName project topic)))
  pure (.topic record)

def listTopics (project : String) : RestM Body := do
  let s ← get
  let page ← domain (liftResult (TopicStore.list s.kv project 100 none))
  pure (.topics page.1 (page.2.getD ""))

def deleteTopic (project topic : String) : RestM Body := do
  domain (PubSubService.deleteTopic (topicName project topic))
  pure .empty

/-- The messages of a publish body, up to the first with bad base64. -/
def decodeMessages : List PublishMessageBody → Except RestError (List PublishMessage)
  | [] => .ok []
  | m :: ms => do
    let data ←
      match c.base64 m.data with
      | .ok data => .ok data
      | .error e => .error (.domain (.invalidArgument "data" s!"invalid base64: {e}"))
    let messages ← decodeMessages ms
    pure (⟨data, m.attributes, m.orderingKey⟩ :: messages)

def publishMessages (json : c.Json) : Except RestError (List PublishMessage) := do
  let body ← invalid "body" (c.publishBody json)
  decodeMessages c body

def publish (fullName : String) (json : c.Json) (nowMs : Int) : RestM Body := do
  let messages ← lift (publishMessages c json)
  let r ← domain (PubSubService.publish fullName messages nowMs)
  pure (.published (r.2.map Nat.repr))

def topicPost (project topicAndVerb : String) (body : List UInt8) (nowMs : Int) : RestM Body :=
  let parts := splitVerb topicAndVerb
  let fullName := topicName project parts.1
  if parts.2 = some "publish" then do
    let json ← lift (parseBodyLenient c body)
    publish c fullName json nowMs
  else throw (noSuchMethod topicAndVerb)

def emptySubscription : Proto.Subscription :=
  { name := "", topic := "", pushConfig := none, hasBigqueryConfig := false,
    hasCloudStorageConfig := false, ackDeadlineSeconds := 0, retainAckedMessages := false,
    messageRetentionDuration := none, labels := ∅, enableMessageOrdering := false,
    expirationPolicy := none, filter := "", deadLetterPolicy := none, retryPolicy := none,
    detached := false, enableExactlyOnceDelivery := false }

def requestedSubscription (body : List UInt8) : Except RestError Proto.Subscription :=
  if body.isEmpty then .ok emptySubscription
  else
    match c.subscription body with
    | .ok sub => .ok sub
    | .error e => .error (.domain (.invalidArgument "body" s!"invalid Subscription: {e}"))

def createSubscription (project sub : String) (body : List UInt8) (nowMs : Int) : RestM Body := do
  let requested ← lift (requestedSubscription c body)
  let record ← domain (PubSubService.createSubscription (subName project sub) requested.topic
    (createOptionsFromProto requested) nowMs)
  pure (.subscription (subscriptionToProto record))

def getSubscription (project sub : String) : RestM Body := do
  let s ← get
  let record ← domain (liftResult (SubscriptionStore.get s.kv (subName project sub)))
  pure (.subscription (subscriptionToProto record))

def listSubscriptions (project : String) : RestM Body := do
  let s ← get
  let page ← domain (liftResult (SubscriptionStore.list s.kv project 100 none))
  pure (.subscriptions (page.1.map subscriptionToProto) (page.2.getD ""))

def deleteSubscription (project sub : String) : RestM Body := do
  domain (PubSubService.deleteSubscription (subName project sub))
  pure .empty

def receivedMessage (m : PulledMessage) : ReceivedMessage :=
  { ackId := m.ackId
    data := m.data
    attributes := m.attributes
    messageId := m.messageId
    publishTime := msToTimestamp m.publishTimeMs
    orderingKey := m.orderingKey
    deliveryAttempt := wrapI32 m.deliveryAttempt }

/-- A body that does not decode asks for one message. -/
def pullMaxMessages (json : c.Json) : Int := max ((c.pullBody json).toOption.getD 0) 1

def pull (fullName : String) (json : c.Json) (nowMs : Int) : RestM Body := do
  let delivered ← domain (PubSubService.pull fullName (pullMaxMessages c json) nowMs)
  pure (.pulled (delivered.map receivedMessage))

def acknowledge (fullName : String) (json : c.Json) (nowMs : Int) : RestM Body := do
  domain (PubSubService.acknowledge fullName ((c.ackIdsBody json).toOption.getD []) nowMs)
  pure .empty

def modifyAckDeadline (fullName : String) (json : c.Json) (nowMs : Int) : RestM Body := do
  let body ← lift (invalid "body" (c.modifyAckDeadlineBody json))
  domain (PubSubService.modifyAckDeadline fullName body.1 nowMs body.2)
  pure .empty

def pushConfigOfBody (json : c.Json) : Except RestError (Option PushConfig) := do
  let pushConfig ← if c.isNull json then .ok none else invalid "body" (c.modifyPushConfigBody json)
  pure (pushConfigNamed pushConfig)

def modifyPushConfig (fullName : String) (json : c.Json) : RestM Body := do
  let pushConfig ← lift (pushConfigOfBody c json)
  domain (PubSubService.modifyPushConfig fullName pushConfig)
  pure .empty

def subscriptionPost (project subAndVerb : String) (body : List UInt8) (nowMs : Int) :
    RestM Body :=
  let parts := splitVerb subAndVerb
  let fullName := subName project parts.1
  if parts.2 = some "pull" then do
    let json ← lift (parseBodyLenient c body)
    pull c fullName json nowMs
  else if parts.2 = some "acknowledge" then do
    let json ← lift (parseBodyLenient c body)
    acknowledge c fullName json nowMs
  else if parts.2 = some "modifyAckDeadline" then do
    let json ← lift (parseBodyLenient c body)
    modifyAckDeadline c fullName json nowMs
  else if parts.2 = some "modifyPushConfig" then do
    let json ← lift (parseBodyLenient c body)
    modifyPushConfig c fullName json
  else throw (noSuchMethod subAndVerb)

def fallback : RestM Body :=
  throw (.unimplemented "this REST method is not implemented by this server")

/-- A request as the router hands it on: the endpoint, the segments of its path after percent
decoding, its body, and the `Content-Type` where the extractor of the body asks for it. -/
inductive Request where
  | createTopic (project topic : String) (contentType : Option String) (body : List UInt8)
  | getTopic (project topic : String)
  | listTopics (project : String)
  | deleteTopic (project topic : String)
  | topicPost (project topicAndVerb : String) (body : List UInt8)
  | createSubscription (project sub : String) (body : List UInt8)
  | getSubscription (project sub : String)
  | listSubscriptions (project : String)
  | deleteSubscription (project sub : String)
  | subscriptionPost (project subAndVerb : String) (body : List UInt8)
  | other

def handle (nowMs : Int) : Request → RestM Body
  | .createTopic project topic contentType body => createTopic c project topic contentType body
  | .getTopic project topic => getTopic project topic
  | .listTopics project => listTopics project
  | .deleteTopic project topic => deleteTopic project topic
  | .topicPost project raw body => topicPost c project raw body nowMs
  | .createSubscription project sub body => createSubscription c project sub body nowMs
  | .getSubscription project sub => getSubscription project sub
  | .listSubscriptions project => listSubscriptions project
  | .deleteSubscription project sub => deleteSubscription project sub
  | .subscriptionPost project raw body => subscriptionPost c project raw body nowMs
  | .other => fallback

end Rest

end OpenPubusb
