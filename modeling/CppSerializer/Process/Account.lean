import CppSerializer.Library.Shares
import CppSerializer.Process.Model

/-!
# What a connection owes

An abstract account of the control replies of one connection. A request is due one reply at most,
and while it is, an item of the account stands for it: the body of the put is awaited, the
payload is to be pushed, the ack of a payload that was pushed is to be written, a reply is to be
written by the handler of the header, or it has been written. `Account.Step` is how items come
and go on; `Sound.step` says that none is made twice, and that no reply is due without an item.
-/

namespace CppSerializer.Process

open Pack Bucket Shares

/-! ## Requests and items -/

/-- A reply to the request, as it is on the wire. -/
def Request.reply (q : Request) (type : MsgT) : Packet where
  header := {
    type := type, key := q.header.key, datasize := 0
    sequence := q.header.sequence, randomSalt := q.header.randomSalt }
  data := ⟨[]⟩

/-- The control reply that the request is due. -/
def Request.reply? (q : Request) : Option Packet :=
  match q.header.type with
  | .put => q.body.map fun _ => q.reply .ack
  | .ack => some (q.reply .ack)
  | .err | .workerDereg | .workerPushRequest | .workerResponse => some (q.reply .err)
  | .get | .workerReg | .trigger | .unnamed _ => none

inductive Item
  | awaits (request : Nat) (header : PacketHeader)
  | stores (request : Nat) (pack : Packet)
  | acks (request : Nat) (pack : Packet)
  | owes (request : Nat) (resp : Packet)
  | replied (request : Nat) (resp : Packet)
  deriving DecidableEq

def Item.request : Item → Nat
  | .awaits request _ | .stores request _ | .acks request _ | .owes request _
  | .replied request _ => request

/-- The item that a header makes. -/
def itemOfHeader (request : Nat) (h : PacketHeader) : List Item :=
  match h.type with
  | .put => [.awaits request h]
  | .ack => [.owes request (response ⟨h, ⟨[]⟩⟩ .ack)]
  | .err | .workerDereg | .workerPushRequest | .workerResponse =>
    [.owes request (response ⟨h, ⟨[]⟩⟩ .err)]
  | .get | .workerReg | .trigger | .unnamed _ => []

structure Account where
  requests : List Request
  items : List Item

namespace Account

/-- How an account changes. `stored` says which payloads were pushed, for a request into the
bucket of a topic. -/
inductive Step (stored : Nat → Topic → PacketData → Prop) (acc : Account) : Account → Prop
  | keep (items : List Item) (same : items.Perm acc.items) : Step stored acc ⟨acc.requests, items⟩
  | parsed (h : PacketHeader) (items : List Item)
      (after : items.Perm (itemOfHeader acc.requests.length h ++ acc.items)) :
      Step stored acc ⟨acc.requests ++ [⟨h, none⟩], items⟩
  | body (n : Nat) (h : PacketHeader) (data : Bytes) (rest items : List Item)
      (before : acc.items.Perm (.awaits n h :: rest))
      (after : items.Perm (.stores n ⟨h, ⟨data⟩⟩ :: rest)) :
      Step stored acc ⟨acc.requests.modify n fun q => { q with body := some data }, items⟩
  | lost (n : Nat) (h : PacketHeader) (items : List Item)
      (before : acc.items.Perm (.awaits n h :: items)) : Step stored acc ⟨acc.requests, items⟩
  | push (n : Nat) (pack : Packet) (rest items : List Item)
      (before : acc.items.Perm (.stores n pack :: rest))
      (after : items.Perm (.acks n pack :: rest)) (pushed : stored n pack.header.topic pack.data) :
      Step stored acc ⟨acc.requests, items⟩
  | ack (n : Nat) (pack : Packet) (rest items : List Item)
      (before : acc.items.Perm (.acks n pack :: rest))
      (after : items.Perm (.replied n (response pack .ack).sized :: rest)) :
      Step stored acc ⟨acc.requests, items⟩
  | reply (n : Nat) (resp : Packet) (rest items : List Item)
      (before : acc.items.Perm (.owes n resp :: rest))
      (after : items.Perm (.replied n resp.sized :: rest)) :
      Step stored acc ⟨acc.requests, items⟩

end Account

/-! ## Sound accounts -/

/-- The item stands for a request that it fits. -/
def Item.Fits (stored : Nat → Topic → PacketData → Prop) (requests : List Request) : Item → Prop
  | .awaits n h => requests[n]? = some ⟨h, none⟩ ∧ h.type = .put
  | .stores n pack =>
    requests[n]? = some ⟨pack.header, some pack.data.buf⟩ ∧ pack.header.type = .put
  | .acks n pack =>
    requests[n]? = some ⟨pack.header, some pack.data.buf⟩ ∧ pack.header.type = .put ∧
      stored n pack.header.topic pack.data
  | .owes n resp => ∃ q, requests[n]? = some q ∧ q.header.type ≠ .put ∧ q.reply? = some resp.sized
  | .replied n resp => ∃ q, requests[n]? = some q ∧ q.reply? = some resp ∧
      (q.header.type = .put → ∃ body, q.body = some body ∧ stored n q.header.topic ⟨body⟩)

/-- An item for every reply that is due, and one at most for a request. -/
structure Account.Sound (stored : Nat → Topic → PacketData → Prop) (acc : Account) : Prop where
  nodup : (acc.items.map Item.request).Nodup
  fits : ∀ item ∈ acc.items, item.Fits stored acc.requests
  due : ∀ (n : Nat) (q : Request) (resp : Packet), acc.requests[n]? = some q →
    q.reply? = some resp → n ∈ acc.items.map Item.request

section

variable {stored stored' : Nat → Topic → PacketData → Prop} {requests requests' : List Request}

theorem Item.Fits.exists_request {item : Item} (h : item.Fits stored requests) :
    ∃ q, requests[item.request]? = some q := by
  cases item with
  | awaits n header => exact ⟨_, h.1⟩
  | stores n pack => exact ⟨_, h.1⟩
  | acks n pack => exact ⟨_, h.1⟩
  | owes n resp =>
    obtain ⟨q, hq, -⟩ := h
    exact ⟨q, hq⟩
  | replied n resp =>
    obtain ⟨q, hq, -⟩ := h
    exact ⟨q, hq⟩

theorem Item.Fits.mono {item : Item} (h : item.Fits stored requests)
    (hstored : ∀ n topic data, stored n topic data → stored' n topic data)
    (hrequests : ∀ q, requests[item.request]? = some q → requests'[item.request]? = some q) :
    item.Fits stored' requests' := by
  cases item with
  | awaits n header => exact ⟨hrequests _ h.1, h.2⟩
  | stores n pack => exact ⟨hrequests _ h.1, h.2⟩
  | acks n pack => exact ⟨hrequests _ h.1, h.2.1, hstored _ _ _ h.2.2⟩
  | owes n resp =>
    obtain ⟨q, hq, hrest⟩ := h
    exact ⟨q, hrequests q hq, hrest⟩
  | replied n resp =>
    obtain ⟨q, hq, hreply, hput⟩ := h
    refine ⟨q, hrequests q hq, hreply, fun htype => ?_⟩
    obtain ⟨body, hbody, hpushed⟩ := hput htype
    exact ⟨body, hbody, hstored _ _ _ hpushed⟩

theorem fits_itemOfHeader {h : PacketHeader} {item : Item}
    (hitem : item ∈ itemOfHeader requests.length h) :
    item.Fits stored (requests ++ [⟨h, none⟩]) := by
  obtain ⟨type, key, datasize, sequence, randomSalt⟩ := h
  cases type with
  | put =>
    obtain rfl := List.mem_singleton.mp hitem
    exact ⟨List.getElem?_concat_length, rfl⟩
  | ack | err | workerDereg | workerPushRequest | workerResponse =>
    obtain rfl := List.mem_singleton.mp hitem
    exact ⟨_, List.getElem?_concat_length, by simp, rfl⟩
  | get | workerReg | trigger | unnamed => cases hitem

theorem itemOfHeader_request {n : Nat} {h : PacketHeader} {item : Item}
    (hitem : item ∈ itemOfHeader n h) : itemOfHeader n h = [item] ∧ item.request = n := by
  obtain ⟨type, key, datasize, sequence, randomSalt⟩ := h
  cases type with
  | put | ack | err | workerDereg | workerPushRequest | workerResponse =>
    obtain rfl := List.mem_singleton.mp hitem
    exact ⟨rfl, rfl⟩
  | get | workerReg | trigger | unnamed => cases hitem

/-- A header that is due a reply makes an item. -/
theorem itemOfHeader_due {n : Nat} {h : PacketHeader} {resp : Packet}
    (hreply : (Request.mk h none).reply? = some resp) :
    n ∈ (itemOfHeader n h).map Item.request := by
  obtain ⟨type, key, datasize, sequence, randomSalt⟩ := h
  cases type with
  | put | get | workerReg | trigger | unnamed => cases hreply
  | ack | err | workerDereg | workerPushRequest | workerResponse => exact List.mem_singleton_self n

end

namespace Account.Sound

variable {stored stored' : Nat → Topic → PacketData → Prop} {acc acc' : Account}

theorem mono (h : acc.Sound stored)
    (hstored : ∀ n topic data, stored n topic data → stored' n topic data) :
    acc.Sound stored' :=
  ⟨h.nodup, fun item hitem => (h.fits item hitem).mono hstored fun _ hq => hq, h.due⟩

/-- An item goes on to another for the same request. -/
theorem replace (h : acc.Sound stored) {item item' : Item} {rest items : List Item}
    (hbefore : acc.items.Perm (item :: rest)) (hafter : items.Perm (item' :: rest))
    (hrequest : item'.request = item.request) (hfits : item'.Fits stored acc.requests) :
    Account.Sound stored ⟨acc.requests, items⟩ := by
  have hnumbers : (items.map Item.request).Perm (acc.items.map Item.request) := by
    have hafter' := hafter.map Item.request
    rw [List.map_cons, hrequest] at hafter'
    exact hafter'.trans (hbefore.map Item.request).symm
  refine ⟨hnumbers.nodup_iff.mpr h.nodup, ?_, ?_⟩
  · intro x hx
    rcases List.mem_cons.mp (hafter.mem_iff.mp hx) with rfl | hx
    · exact hfits
    · exact h.fits x (hbefore.mem_iff.mpr (List.mem_cons_of_mem _ hx))
  · intro n q resp hq hreply
    exact hnumbers.mem_iff.mpr (h.due n q resp hq hreply)

theorem parsed (h : acc.Sound stored) {header : PacketHeader} {items : List Item}
    (hafter : items.Perm (itemOfHeader acc.requests.length header ++ acc.items)) :
    Account.Sound stored ⟨acc.requests ++ [⟨header, none⟩], items⟩ := by
  have hlt : ∀ item ∈ acc.items, item.request < acc.requests.length := by
    intro item hitem
    obtain ⟨q, hq⟩ := (h.fits item hitem).exists_request
    exact (List.getElem?_eq_some_iff.mp hq).1
  have hnumbers := hafter.map Item.request
  rw [List.map_append] at hnumbers
  refine ⟨?_, ?_, ?_⟩
  · rw [hnumbers.nodup_iff]
    refine List.Nodup.append ?_ h.nodup ?_
    · cases hnew : itemOfHeader acc.requests.length header with
      | nil => exact List.nodup_nil
      | cons item more =>
        have hitem : item ∈ itemOfHeader acc.requests.length header := by
          rw [hnew]
          exact List.mem_cons_self
        rw [← hnew, (itemOfHeader_request hitem).1]
        exact List.nodup_singleton _
    · intro n hn hn'
      obtain ⟨item, hitem, rfl⟩ := List.mem_map.mp hn
      obtain ⟨item', hitem', heq⟩ := List.mem_map.mp hn'
      have := hlt item' hitem'
      rw [heq, (itemOfHeader_request hitem).2] at this
      omega
  · intro item hitem
    rcases List.mem_append.mp (hafter.mem_iff.mp hitem) with hitem | hitem
    · exact fits_itemOfHeader hitem
    · refine (h.fits item hitem).mono (fun _ _ _ hs => hs) fun q hq => ?_
      exact (List.getElem?_append_left (hlt item hitem)).trans hq
  · intro n q resp hq hreply
    rw [hnumbers.mem_iff, List.mem_append]
    by_cases hn : n < acc.requests.length
    · rw [List.getElem?_append_left hn] at hq
      exact Or.inr (h.due n q resp hq hreply)
    · have hlast : n = acc.requests.length := by
        have := (List.getElem?_eq_some_iff.mp hq).1
        rw [List.length_append, List.length_singleton] at this
        omega
      rw [hlast, List.getElem?_concat_length] at hq
      cases hq
      rw [hlast]
      exact Or.inl (itemOfHeader_due hreply)

/-- The body that an item has awaited. No other item is for its request. -/
theorem body (h : acc.Sound stored) {n : Nat} {header : PacketHeader} {data : Bytes}
    {rest items : List Item} (hbefore : acc.items.Perm (.awaits n header :: rest))
    (hafter : items.Perm (.stores n ⟨header, ⟨data⟩⟩ :: rest)) :
    Account.Sound stored
      ⟨acc.requests.modify n fun q => { q with body := some data }, items⟩ := by
  obtain ⟨hrequest, htype⟩ := h.fits _ (hbefore.mem_iff.mpr List.mem_cons_self)
  have hnumbers : (items.map Item.request).Perm (acc.items.map Item.request) :=
    (hafter.map Item.request).trans (hbefore.map Item.request).symm
  have hother : ∀ item ∈ rest, item.request ≠ n := by
    have hnodup := (hbefore.map Item.request).nodup_iff.mp h.nodup
    rw [List.map_cons, List.nodup_cons] at hnodup
    intro item hitem heq
    exact hnodup.1 (List.mem_map.mpr ⟨item, hitem, heq⟩)
  refine ⟨hnumbers.nodup_iff.mpr h.nodup, ?_, ?_⟩
  · intro item hitem
    rcases List.mem_cons.mp (hafter.mem_iff.mp hitem) with rfl | hitem
    · refine ⟨?_, htype⟩
      rw [List.getElem?_modify_eq, hrequest]
      rfl
    · refine (h.fits item (hbefore.mem_iff.mpr (List.mem_cons_of_mem _ hitem))).mono
        (fun _ _ _ hs => hs) fun q hq => ?_
      exact (List.getElem?_modify_ne _ _ (hother item hitem).symm).trans hq
  · intro k q resp hq hreply
    by_cases hk : k = n
    · rw [hk, hnumbers.mem_iff, (hbefore.map Item.request).mem_iff]
      exact List.mem_cons_self
    · rw [List.getElem?_modify_ne _ _ (Ne.symm hk)] at hq
      exact hnumbers.mem_iff.mpr (h.due k q resp hq hreply)

/-- A body that is not read leaves a request without a reply. -/
theorem lost (h : acc.Sound stored) {n : Nat} {header : PacketHeader} {items : List Item}
    (hbefore : acc.items.Perm (.awaits n header :: items)) :
    Account.Sound stored ⟨acc.requests, items⟩ := by
  obtain ⟨hrequest, htype⟩ := h.fits _ (hbefore.mem_iff.mpr List.mem_cons_self)
  have hnumbers := hbefore.map Item.request
  rw [List.map_cons] at hnumbers
  refine ⟨(List.nodup_cons.mp (hnumbers.nodup_iff.mp h.nodup)).2, ?_, ?_⟩
  · intro item hitem
    exact h.fits item (hbefore.mem_iff.mpr (List.mem_cons_of_mem _ hitem))
  · intro k q resp hq hreply
    rcases List.mem_cons.mp (hnumbers.mem_iff.mp (h.due k q resp hq hreply)) with hk | hk
    · change k = n at hk
      rw [hk, hrequest] at hq
      cases hq
      rw [Request.reply?, htype] at hreply
      cases hreply
    · exact hk

theorem step (h : acc.Sound stored)
    (hstored : ∀ n topic data, stored n topic data → stored' n topic data)
    (hstep : Account.Step stored' acc acc') : acc'.Sound stored' := by
  have hs := h.mono hstored
  cases hstep with
  | keep items same =>
    refine ⟨(same.map _).nodup_iff.mpr hs.nodup, ?_, ?_⟩
    · intro item hitem
      exact hs.fits item (same.mem_iff.mp hitem)
    · intro n q resp hq hreply
      exact (same.map _).mem_iff.mpr (hs.due n q resp hq hreply)
  | parsed header items after => exact hs.parsed after
  | body n header data rest items before after => exact hs.body before after
  | lost n header items before => exact hs.lost before
  | push n pack rest items before after pushed =>
    obtain ⟨hrequest, htype⟩ := hs.fits _ (before.mem_iff.mpr List.mem_cons_self)
    exact hs.replace before after rfl ⟨hrequest, htype, pushed⟩
  | ack n pack rest items before after =>
    obtain ⟨hrequest, htype, hpushed⟩ := hs.fits _ (before.mem_iff.mpr List.mem_cons_self)
    refine hs.replace before after rfl ⟨_, hrequest, ?_, fun _ => ⟨_, rfl, hpushed⟩⟩
    rw [Request.reply?, htype]
    rfl
  | reply n resp rest items before after =>
    obtain ⟨q, hq, htype, hreply⟩ := hs.fits _ (before.mem_iff.mpr List.mem_cons_self)
    exact hs.replace before after rfl ⟨q, hq, hreply, fun hput => absurd hput htype⟩

end Account.Sound

end CppSerializer.Process
