import EmbeddedInfra.Lib.EventSystem

set_option autoImplicit false

/-! # The send stream of Echo

Proxies ask Echo for the send stream of its connection and are granted it one after the other. Echo has one
list of the proxies that wait and one stream; whether the connection has to be asked for a stream is seen
from these two (`requestSend`, `send`). The connection answers a request in an event of its own
(`sendStreamAvailable`), of which calling `GrantSend` is the last act, so that what the granted proxy does from
inside `GrantSend` is what happens next.
-/

namespace EmbeddedInfra.Echo

open EventSystem

/-- A call of `RequestSendStream`, and whether Echo had a stream then. -/
structure Issue where
  size : UInt32
  held : Bool

/-- A call of `GrantSend`: the callback of the proxy that was called, and the stream it was given. -/
structure Grant (Proxy Callback : Type) where
  proxy : Proxy
  callback : Option Callback
  size : UInt32

/-- The sending half of Echo, its connection and its proxies. The last four fields record what has happened. -/
structure Sender (Proxy Callback : Type) where
  sendRequesters : List Proxy := []
  streamWriter : Bool := false
  /-- `ServiceProxy::onGranted` -/
  onGranted : Proxy → Option Callback := fun _ => none
  /-- The calls of `RequestSendStream` that the connection has not answered. -/
  outstanding : List UInt32 := []
  issued : List Issue := []
  requested : List (Proxy × Callback) := []
  grants : List (Grant Proxy Callback) := []
  /-- The front of an empty list has been taken. -/
  emptyFront : Bool := false

inductive Event (Proxy Callback : Type) where
  | requestSend (proxy : Proxy) (onGranted : Callback)
  | sendStreamAvailable
  | send (proxy : Proxy)

/-- A stream comes from the connection. -/
def Event.available {Proxy Callback : Type} : Event Proxy Callback → Bool
  | .sendStreamAvailable => true
  | _ => false

namespace Sender

variable {Proxy Callback : Type} (maxMessageSize : Proxy → UInt32)

/-- `Connection::RequestSendStream` -/
def requestSendStream (s : Sender Proxy Callback) (size : UInt32) : Sender Proxy Callback :=
  { s with outstanding := s.outstanding ++ [size], issued := s.issued ++ [{ size, held := s.streamWriter }] }

/-- `ServiceProxy::RequestSend`, with `Echo::RequestSend` -/
def requestSend [DecidableEq Proxy] (s : Sender Proxy Callback) (proxy : Proxy) (onGranted : Callback) : Sender Proxy Callback :=
  let s := { s with onGranted := Function.update s.onGranted proxy (some onGranted)
                    requested := s.requested ++ [(proxy, onGranted)] }
  let s := if s.sendRequesters = [] ∧ s.streamWriter = false then s.requestSendStream (maxMessageSize proxy) else s
  { s with sendRequesters := s.sendRequesters ++ [proxy] }

/-- `Echo::SendStreamAvailable`, with the stream of the size that was asked for. -/
def sendStreamAvailable (s : Sender Proxy Callback) (size : UInt32) : Sender Proxy Callback :=
  match s.sendRequesters with
  | [] => { s with streamWriter := true, emptyFront := true }
  | proxy :: rest =>
    { s with streamWriter := true, sendRequesters := rest
             grants := s.grants ++ [{ proxy, callback := s.onGranted proxy, size }] }

/-- `Echo::Send` -/
def send (s : Sender Proxy Callback) : Sender Proxy Callback :=
  let s := { s with streamWriter := false }
  match s.sendRequesters with
  | [] => s
  | proxy :: _ => s.requestSendStream (maxMessageSize proxy)

/-- A proxy does not ask again while it waits, the connection answers the oldest request that is outstanding,
and the proxy that was granted the stream last sends, once it has written to `SendStreamWriter()`. -/
def step [DecidableEq Proxy] (s : Sender Proxy Callback) : Event Proxy Callback → Option (Sender Proxy Callback)
  | .requestSend proxy onGranted =>
    if proxy ∈ s.sendRequesters then none else some (s.requestSend maxMessageSize proxy onGranted)
  | .sendStreamAvailable =>
    match s.outstanding with
    | [] => none
    | size :: rest => some (sendStreamAvailable { s with outstanding := rest } size)
  | .send proxy =>
    if s.streamWriter = true ∧ s.grants.getLast?.map Grant.proxy = some proxy then some (s.send maxMessageSize) else none

/-! ## What Echo promises -/

/-- **The stream is granted fairly.** At most one request is outstanding and none has been issued while a
stream was held; a request has the size of the proxy that waits longest, and a proxy has been granted a stream of
its own size. The requests to send are those that have been granted, each with its own callback, followed by
those that wait, and while one waits there is a stream or one has been asked for. -/
structure Fair (s : Sender Proxy Callback) : Prop where
  single : s.outstanding.length ≤ 1
  unheld : ∀ i ∈ s.issued, i.held = false
  size : ∀ size ∈ s.outstanding, s.sendRequesters.head?.map maxMessageSize = some size
  grantSize : ∀ g ∈ s.grants, g.size = maxMessageSize g.proxy
  order : ∃ waiting : List (Proxy × Callback), s.sendRequesters = waiting.map Prod.fst ∧
    s.requested.map (fun r => (r.1, some r.2)) =
      s.grants.map (fun g => (g.proxy, g.callback)) ++ waiting.map (fun r => (r.1, some r.2))
  front : s.emptyFront = false
  live : s.sendRequesters ≠ [] → s.streamWriter = true ∨ s.outstanding ≠ []

/-! ## The invariant -/

/-- The three situations in which Echo can be. -/
inductive Phase (s : Sender Proxy Callback) : Prop
  | idle (hwriter : s.streamWriter = false) (hqueue : s.sendRequesters = []) (hout : s.outstanding = [])
  | asked (proxy : Proxy) (rest : List Proxy) (hwriter : s.streamWriter = false)
      (hqueue : s.sendRequesters = proxy :: rest) (hout : s.outstanding = [maxMessageSize proxy])
  | held (hwriter : s.streamWriter = true) (hout : s.outstanding = [])

/-- The requests, granted and waiting; every proxy that waits has kept its callback. -/
structure Accounts (s : Sender Proxy Callback) (waiting : List (Proxy × Callback)) : Prop where
  queue : s.sendRequesters = waiting.map Prod.fst
  nodup : s.sendRequesters.Nodup
  callbacks : ∀ r ∈ waiting, s.onGranted r.1 = some r.2
  requested : s.requested.map (fun r => (r.1, some r.2)) =
    s.grants.map (fun g => (g.proxy, g.callback)) ++ waiting.map (fun r => (r.1, some r.2))

structure Inv (s : Sender Proxy Callback) : Prop where
  phase : s.Phase maxMessageSize
  accounts : ∃ waiting, s.Accounts waiting
  unheld : ∀ i ∈ s.issued, i.held = false
  grantSize : ∀ g ∈ s.grants, g.size = maxMessageSize g.proxy
  front : s.emptyFront = false

variable {maxMessageSize} {s s' : Sender Proxy Callback}

theorem Inv.fair (h : s.Inv maxMessageSize) : s.Fair maxMessageSize := by
  obtain ⟨waiting, haccounts⟩ := h.accounts
  refine ⟨?_, h.unheld, ?_, h.grantSize, ⟨waiting, haccounts.queue, haccounts.requested⟩, h.front, ?_⟩
  all_goals
    cases h.phase with
    | idle hwriter hqueue hout => simp [hqueue, hout]
    | asked proxy rest hwriter hqueue hout => simp [hqueue, hout]
    | held hwriter hout => simp [hwriter, hout]

theorem inv_initial : Inv maxMessageSize ({} : Sender Proxy Callback) :=
  ⟨.idle rfl rfl rfl, ⟨[], rfl, List.nodup_nil, by simp, rfl⟩, by simp, by simp, rfl⟩

/-! ## The steps -/

/-- The stream that comes goes to the proxy that it was asked for. -/
theorem Inv.sendStreamAvailable {size : UInt32} {rest : List UInt32} (h : s.Inv maxMessageSize)
    (hout : s.outstanding = size :: rest) :
    (Sender.sendStreamAvailable { s with outstanding := rest } size).Inv maxMessageSize := by
  obtain ⟨waiting, haccounts⟩ := h.accounts
  cases h.phase with
  | idle _ _ hnone => simp [hnone] at hout
  | held _ hnone => simp [hnone] at hout
  | asked proxy others hwriter hqueue hasked =>
      obtain ⟨rfl, rfl⟩ : maxMessageSize proxy = size ∧ rest = [] := by simpa [hasked, eq_comm] using hout
      obtain ⟨⟨p, onGranted⟩, later, rfl⟩ : ∃ r later, waiting = r :: later := by
        cases waiting with
        | nil => simp [haccounts.queue] at hqueue
        | cons r later => exact ⟨r, later, rfl⟩
      obtain ⟨rfl, rfl⟩ : p = proxy ∧ others = later.map Prod.fst := by
        simpa [haccounts.queue, eq_comm] using hqueue
      have hcallback : s.onGranted p = some onGranted := haccounts.callbacks _ List.mem_cons_self
      have hnodup := haccounts.nodup
      rw [hqueue, List.nodup_cons] at hnodup
      simp only [Sender.sendStreamAvailable, hqueue]
      refine ⟨.held rfl rfl, ⟨later, rfl, hnodup.2, ?_, ?_⟩, h.unheld, ?_, h.front⟩
      · exact fun r hr => haccounts.callbacks r (List.mem_cons_of_mem _ hr)
      · simp [haccounts.requested, hcallback]
      · intro g hg
        rcases List.mem_append.mp hg with hg | hg
        · exact h.grantSize g hg
        · obtain rfl := List.mem_singleton.mp hg
          rfl

/-- Sending gives the stream back and asks for one for the proxy that waits longest. -/
theorem send_eq : s.send maxMessageSize =
    { s with streamWriter := false
             outstanding := s.outstanding ++ s.sendRequesters.head?.toList.map maxMessageSize
             issued := s.issued ++
               s.sendRequesters.head?.toList.map fun proxy => { size := maxMessageSize proxy, held := false } } := by
  cases hqueue : s.sendRequesters <;> simp [send, requestSendStream, hqueue]

/-- A stream that is given back is asked for again as soon as somebody waits. -/
theorem Inv.send (h : s.Inv maxMessageSize) (hheld : s.streamWriter = true) :
    (s.send maxMessageSize).Inv maxMessageSize := by
  obtain ⟨waiting, haccounts⟩ := h.accounts
  have hnone : s.outstanding = [] := by
    cases h.phase with
    | idle hwriter => simp [hwriter] at hheld
    | asked _ _ hwriter => simp [hwriter] at hheld
    | held _ hout => exact hout
  rw [send_eq]
  refine ⟨?_, ⟨waiting, haccounts.queue, haccounts.nodup, haccounts.callbacks, haccounts.requested⟩, ?_, h.grantSize,
    h.front⟩
  · cases hqueue : s.sendRequesters with
    | nil => exact .idle rfl rfl (by simp [hnone])
    | cons proxy rest => exact .asked proxy rest rfl rfl (by simp [hnone])
  · intro i hi
    rcases List.mem_append.mp hi with hi | hi
    · exact h.unheld i hi
    · obtain ⟨proxy, -, rfl⟩ := List.mem_map.mp hi
      rfl

variable [DecidableEq Proxy]

section RequestSend

variable (proxy : Proxy) (onGranted : Callback)

/-- Asking to send changes the list, the callback and, when nobody waits and there is no stream, what has been
asked of the connection. -/
theorem requestSend_eq : s.requestSend maxMessageSize proxy onGranted =
    { s with sendRequesters := s.sendRequesters ++ [proxy]
             onGranted := Function.update s.onGranted proxy (some onGranted)
             requested := s.requested ++ [(proxy, onGranted)]
             outstanding := s.outstanding ++
               if s.sendRequesters = [] ∧ s.streamWriter = false then [maxMessageSize proxy] else []
             issued := s.issued ++ if s.sendRequesters = [] ∧ s.streamWriter = false then
               [{ size := maxMessageSize proxy, held := false }] else [] } := by
  by_cases hfree : s.sendRequesters = [] ∧ s.streamWriter = false
  · simp [requestSend, requestSendStream, hfree]
  · simp [requestSend, hfree]

end RequestSend

/-- A new request waits behind the others. -/
theorem Accounts.requestSend {waiting : List (Proxy × Callback)} {proxy : Proxy} {onGranted : Callback}
    (h : s.Accounts waiting) (hnew : proxy ∉ s.sendRequesters) :
    (s.requestSend maxMessageSize proxy onGranted).Accounts (waiting ++ [(proxy, onGranted)]) := by
  have hother : ∀ r ∈ waiting, r.1 ≠ proxy := by
    rintro r hr rfl
    exact hnew (h.queue ▸ List.mem_map_of_mem hr)
  rw [requestSend_eq]
  constructor
  · simp [h.queue]
  · exact List.nodup_append.mpr ⟨h.nodup, by simp, fun a ha b hb heq => hnew (List.mem_singleton.mp hb ▸ heq ▸ ha)⟩
  · intro r hr
    rcases List.mem_append.mp hr with hr | hr
    · exact (Function.update_of_ne (hother r hr) ..).trans (h.callbacks r hr)
    · obtain rfl := List.mem_singleton.mp hr
      exact Function.update_self ..
  · simp [h.requested]

theorem Inv.requestSend {proxy : Proxy} {onGranted : Callback} (h : s.Inv maxMessageSize)
    (hnew : proxy ∉ s.sendRequesters) : (s.requestSend maxMessageSize proxy onGranted).Inv maxMessageSize := by
  obtain ⟨waiting, haccounts⟩ := h.accounts
  refine ⟨?_, ⟨_, haccounts.requestSend hnew⟩, ?_, ?_, ?_⟩ <;> rw [requestSend_eq]
  · cases h.phase with
    | idle hwriter hqueue hout =>
        exact .asked proxy [] hwriter (by simp [hqueue]) (by simp [hwriter, hqueue, hout])
    | asked first rest hwriter hqueue hout =>
        exact .asked first (rest ++ [proxy]) hwriter (by simp [hqueue]) (by simp [hqueue, hout])
    | held hwriter hout => exact .held hwriter (by simp [hwriter, hout])
  · intro i hi
    rcases List.mem_append.mp hi with hi | hi
    · exact h.unheld i hi
    · split at hi
      · obtain rfl := List.mem_singleton.mp hi
        rfl
      · cases hi
  · exact h.grantSize
  · exact h.front

/-- What an event does to the invariant and to the number of grants. -/
theorem Inv.next {e : Event Proxy Callback} (h : s.Inv maxMessageSize) (hstep : s.step maxMessageSize e = some s') :
    s'.Inv maxMessageSize ∧ s'.grants.length = s.grants.length + e.available.toNat := by
  cases e with
  | requestSend proxy onGranted =>
      simp only [Sender.step, Option.ite_none_left_eq_some, Option.some.injEq] at hstep
      obtain ⟨hnew, rfl⟩ := hstep
      refine ⟨h.requestSend hnew, ?_⟩
      rw [requestSend_eq]
      rfl
  | sendStreamAvailable =>
      simp only [Sender.step] at hstep
      split at hstep
      case h_1 => cases hstep
      case h_2 size rest hout =>
        cases hstep
        have hnext := h.sendStreamAvailable hout
        refine ⟨hnext, ?_⟩
        cases hqueue : s.sendRequesters with
        | nil => simpa [Sender.sendStreamAvailable, hqueue] using hnext.front
        | cons proxy others => simp [Sender.sendStreamAvailable, Event.available]
  | send proxy =>
      simp only [Sender.step, Option.ite_none_right_eq_some, Option.some.injEq] at hstep
      obtain ⟨⟨hheld, -⟩, rfl⟩ := hstep
      refine ⟨h.send hheld, ?_⟩
      rw [send_eq]
      rfl

/-- A run keeps the invariant, and every stream that comes grants one more request. -/
theorem Inv.run {events : List (Event Proxy Callback)} (hs : s.Inv maxMessageSize)
    (h : run (step maxMessageSize) s events = some s') :
    s'.Inv maxMessageSize ∧ s'.grants.length = s.grants.length + events.countP Event.available := by
  induction events generalizing s with
  | nil =>
      cases h
      exact ⟨hs, rfl⟩
  | cons e rest ih =>
      obtain ⟨m, hm, hrest⟩ := run_cons.mp h
      obtain ⟨hinv, hcount⟩ := hs.next hm
      obtain ⟨hinv', hcount'⟩ := ih hinv hrest
      refine ⟨hinv', ?_⟩
      rw [hcount', hcount, List.countP_cons]
      cases e.available
      · simp
      · simp only [Bool.toNat_true, if_true]
        omega

/-- **The send stream is granted fairly in every run**, and after as many streams as there have been requests up
to one of them, that request has been granted. -/
theorem fair_of_run {events : List (Event Proxy Callback)}
    (h : run (step maxMessageSize) ({} : Sender Proxy Callback) events = some s) :
    s.Fair maxMessageSize ∧ s.grants.length = events.countP Event.available := by
  obtain ⟨hinv, hcount⟩ := inv_initial.run h
  exact ⟨hinv.fair, by simpa using hcount⟩

/-- Two proxies; the first asks again from inside its `GrantSend`, and waits behind the second. -/
def askingAgain : List (Event Bool Nat) :=
  [.requestSend true 1, .requestSend false 2, .sendStreamAvailable, .requestSend true 3, .send true, .sendStreamAvailable]

theorem fair_of_run_askingAgain :
    ∃ s, run (step fun proxy => if proxy then 20 else 10) ({} : Sender Bool Nat) askingAgain = some s ∧
      s.Fair (fun proxy => if proxy then 20 else 10) ∧ s.grants.length = 2 ∧ s.sendRequesters = [true] := by
  refine ⟨_, rfl, ?_, rfl, rfl⟩
  exact (fair_of_run (show run _ _ askingAgain = some _ from rfl)).1

end Sender

end EmbeddedInfra.Echo
