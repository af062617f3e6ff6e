import OpenPubusb.Service

/-! The push dispatcher's delivery of one message. The answer of the endpoint is an
argument. -/

namespace OpenPubusb

def wrapI32 (x : Int) : Int := Int.bmod x (2 ^ 32)

namespace Dispatcher

/-- The whole seconds of a backoff, at least one, as the new deadline of the lease. -/
def deadlineSecs (backoffMs : Nat) : Int :=
  wrapI32 (min (max (backoffMs / 1000 : Nat) 1) i64Max)

/-- The end of `deliver_one`: the message is acknowledged, or its deadline is moved by the
backoff. Errors of either call are ignored. -/
def deliverOne (success : Bool) (streamId subId : Nat) (msg : PulledMessage)
    (minRetryBackoffSecs maxRetryBackoffSecs nowMs : Int) : EngineM Unit :=
  if success then
    Hoare.ignore (PubSubService.streamAcknowledge streamId subId [msg.ackId] nowMs)
  else
    let backoff :=
      backoffForAttempts msg.deliveryAttempt minRetryBackoffSecs maxRetryBackoffSecs
    Hoare.ignore (PubSubService.streamModifyAckDeadline streamId subId [msg.ackId] nowMs
      (deadlineSecs backoff))

end Dispatcher

end OpenPubusb
