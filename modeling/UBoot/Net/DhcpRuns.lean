/-
# What a bound DHCP client uses

In every run a client is bound by the answer to its last REQUEST. The parameters in use are those
of the server that answered as long as what another server's offer has set is set again: nothing
takes back what an offer has set when the client starts again.
-/

import UBoot.Net.Dhcp

namespace UBoot.Dhcp

open UBoot.Lib UBoot.Bootp

variable {cfg : Config} {CONFIG_SYS_BOOTFILE_PREFIX : List Byte} {ether : U32}

/-! ## Runs -/

/-- Options that the walks parse as they are meant. -/
structure Packet.Good (cfg : Config) (p : Packet) : Prop where
  pads : Item.pad ∉ p.items
  wellFormed : WellFormed (options p.items)
  long : ∀ o ∈ options p.items, LongEnough cfg o
  fits : (encode p.items).length ≤ BOOTP_HDR_SIZE

/-- A packet has an option. -/
def Sent.Carries (m : Sent) (code : Byte) : Prop := find (options m.packet.items) code ≠ none

/-- The options for the parameters in use: mask, gateway, DNS server, host name and root path. -/
def codes : List Byte := [1#8, 3#8, 6#8, 12#8, 17#8]

/-- What another server has sent, this server has sent behind it. -/
def Carried (accepted : List Sent) (server : U32) : Prop :=
  ∀ pre o post, accepted = pre ++ o :: post → o.server ≠ server → ∀ code ∈ codes, o.Carries code →
    ∃ o' ∈ post, o'.server = server ∧ o'.Carries code

/-- The transaction of a restart is new, the options of what is sent can be parsed, and a server
that acknowledges has sent what other servers have sent before. -/
def Careful (cfg : Config) (ether : U32) (l : Link) : Event → Prop
  | .restart now => ether + now ∉ l.discovers
  | .offer _ p => p.Good cfg
  | .answer _ _ p => p.Good cfg
  | .deliver m => l.client.dhcp_state = .REQUESTING → m.packet.bp_id = l.client.BootpID →
      m.packet.HasType DHCP_ACK → Carried (l.accepted ++ [m]) m.server

/-- A step that is careful. -/
def CarefulStep (cfg : Config) (CONFIG_SYS_BOOTFILE_PREFIX : List Byte) (ether : U32) (l : Link)
    (e : Event) (l' : Link) : Prop :=
  Step cfg CONFIG_SYS_BOOTFILE_PREFIX ether l e l' ∧ Careful cfg ether l e

/-- A link on which nothing has been sent. -/
def quiet (c : Client) : Link := ⟨{ c with dhcp_state := .INIT }, [], [], [], []⟩

/-- What holds of all that was there, and of what comes last. -/
theorem forall_mem_concat {α : Type} {P : α → Prop} {l : List α} {a : α} (h : ∀ x ∈ l, P x)
    (ha : P a) : ∀ x ∈ l ++ [a], P x :=
  List.forall_mem_append.2 ⟨h, List.forall_mem_singleton.2 ha⟩

/-! ## What is in use -/

/-- A parameter is what a server has sent for it, or else what it was, and the packet `m` has no
option for it. -/
def SentBy {α : Type} (l : Link) (m : Sent) (code : Byte) (g : List Byte → α) (value initial : α) :
    Prop :=
  (∃ o ∈ l.sent, o.server = m.server ∧ ∃ data,
    find (options o.packet.items) code = some data ∧ value = g data) ∨
  (¬ m.Carries code ∧ value = initial)

/-- The client is bound by an acknowledgement of its last REQUEST, which nothing else answers, and
what it uses is from the server that sent it. -/
structure BoundBy (initial : Params) (l : Link) (m : Sent) (r : Request) : Prop where
  sent : m ∈ l.sent
  ack : m.packet.HasType DHCP_ACK
  answers : m.answers = some r
  last : l.requests.getLast? = some r
  address : l.client.NetOurIP = m.packet.bp_yiaddr
  once : ∀ m' ∈ l.sent, m'.answers = some r → m' = m
  mask : SentBy l m 1#8 longOf l.client.params.NetOurSubnetMask initial.NetOurSubnetMask
  gateway : SentBy l m 3#8 longOf l.client.params.NetOurGatewayIP initial.NetOurGatewayIP
  dns : SentBy l m 6#8 longOf l.client.params.NetOurDNSIP initial.NetOurDNSIP
  host : SentBy l m 12#8 (·.take (HOST_NAME_SIZE - 1)) l.client.params.NetOurHostName
    initial.NetOurHostName
  root : SentBy l m 17#8 (·.take (ROOT_PATH_SIZE - 1)) l.client.params.NetOurRootPath
    initial.NetOurRootPath

theorem SentBy.mono {α : Type} {l l' : Link} {m : Sent} {code : Byte} {g : List Byte → α}
    {value initial : α} (h : SentBy l m code g value initial) (hsent : ∀ o ∈ l.sent, o ∈ l'.sent) :
    SentBy l' m code g value initial :=
  h.imp_left fun ⟨o, ho, hserver, hdata⟩ => ⟨o, hsent o ho, hserver, hdata⟩

/-! ## Reading options -/

/-- Options that can be parsed set what they say. -/
theorem readOptions_eq {p : Packet} (h : p.Good cfg) (params : Params) :
    readOptions cfg p params =
      dhcpDescribed cfg (find (options p.items)) { params with bp_file := p.bp_file } := by
  rw [readOptions, if_pos (readLong_packetOf p.items),
    DhcpOptionsProcess,
    dhcpLoop_eq _ (holds_packetOf p.items) h.pads h.wellFormed h.long (by have := h.fits; omega) h.fits,
    foldl_dhcpMeaning h.wellFormed]

/-- The message type is found. -/
theorem messageType_eq {p : Packet} (h : p.Good cfg) :
    DhcpMessageType (packetOf p.items) (encode p.items).length 0 =
      some (messageType (options p.items)) := by
  rw [DhcpMessageType,
    if_neg (not_not.2 (readLong_packetOf p.items))]
  exact messageTypeLoop_eq (holds_packetOf p.items) h.pads h.wellFormed h.long le_rfl

theorem Packet.HasType.messageType {p : Packet} {type : Byte} (h : p.HasType type) :
    messageType (options p.items) = type.toNat := by
  rw [Packet.HasType] at h
  rw [Bootp.messageType, h]

/-- The parameters after the options of several packets. -/
def reads (cfg : Config) (accepted : List Sent) (params : Params) : Params :=
  accepted.foldl (fun params m => readOptions cfg m.packet params) params

/-- A parameter is set by the last packet that has an option for it. -/
theorem reads_param {α : Type} {π : Params → α} {g : List Byte → α} {code : Byte}
    (hset : ∀ found p file, π (dhcpDescribed cfg found { p with bp_file := file }) =
      ((found code).map g).getD (π p))
    {accepted : List Sent} (hgood : ∀ m ∈ accepted, m.packet.Good cfg) (params : Params) :
    (∃ pre o post data, accepted = pre ++ o :: post ∧ find (options o.packet.items) code = some data ∧
      (∀ o' ∈ post, ¬ o'.Carries code) ∧ π (reads cfg accepted params) = g data) ∨
    ((∀ o ∈ accepted, ¬ o.Carries code) ∧ π (reads cfg accepted params) = π params) := by
  induction accepted using List.reverseRecOn with
  | nil => exact Or.inr ⟨fun o ho => absurd ho (List.not_mem_nil), rfl⟩
  | append_singleton accepted m ih =>
      have hlast : π (reads cfg (accepted ++ [m]) params) =
          ((find (options m.packet.items) code).map g).getD (π (reads cfg accepted params)) := by
        rw [reads, List.foldl_append, List.foldl_cons, List.foldl_nil,
          readOptions_eq (hgood m (List.mem_append_right _ (List.mem_singleton_self m))), hset]
        rfl
      rcases hfind : find (options m.packet.items) code with _ | data
      · rw [hfind, Option.map_none, Option.getD_none] at hlast
        have hnot : ¬ m.Carries code := not_not.2 hfind
        rcases ih fun o ho => hgood o (List.mem_append_left _ ho) with
          ⟨pre, o, post, data, hsplit, hdata, hbehind, hvalue⟩ | ⟨hnone, hvalue⟩
        · exact Or.inl ⟨pre, o, post ++ [m], data, by rw [hsplit]; simp, hdata,
            forall_mem_concat hbehind hnot, hlast.trans hvalue⟩
        · exact Or.inr ⟨forall_mem_concat hnone hnot, hlast.trans hvalue⟩
      · rw [hfind] at hlast
        exact Or.inl ⟨accepted, m, [], data, rfl, hfind, fun o ho => absurd ho (List.not_mem_nil), hlast⟩

/-- When the packets of other servers are carried on, a parameter is from the server of the last
packet. -/
theorem reads_sentBy {α : Type} {π : Params → α} {g : List Byte → α} {code : Byte}
    (hset : ∀ found p file, π (dhcpDescribed cfg found { p with bp_file := file }) =
      ((found code).map g).getD (π p))
    (hcode : code ∈ codes) {l : Link} {accepted : List Sent} {m : Sent}
    (hgood : ∀ o ∈ accepted ++ [m], o.packet.Good cfg) (hsent : ∀ o ∈ accepted ++ [m], o ∈ l.sent)
    (hcarried : Carried (accepted ++ [m]) m.server) (params : Params) :
    SentBy l m code g (π (reads cfg (accepted ++ [m]) params)) (π params) := by
  rcases reads_param hset hgood params with
    ⟨pre, o, post, data, hsplit, hdata, hbehind, hvalue⟩ | ⟨hnone, hvalue⟩
  · have ho : o ∈ accepted ++ [m] := by
      rw [hsplit]
      exact List.mem_append_right _ List.mem_cons_self
    by_cases hserver : o.server = m.server
    · exact Or.inl ⟨o, hsent o ho, hserver, data, hdata, hvalue⟩
    · obtain ⟨o', ho', -, hcarries⟩ := hcarried pre o post hsplit hserver code hcode
        (by rw [Sent.Carries, hdata]; simp)
      exact absurd hcarries (hbehind o' ho')
  · exact Or.inr ⟨hnone m (List.mem_append_right _ (List.mem_singleton_self m)), hvalue⟩

/-! ## What the handler does -/

/-- A packet that is accepted is of the transaction. -/
theorem bp_id_of_checkPkt {p : Packet} {BootpID : U32} (h : ¬ ¬ BootpCheckPkt p BootpID) :
    p.bp_id = BootpID := by
  simp only [BootpCheckPkt, decide_eq_true_eq, not_not] at h
  exact h.2.2.2.2.2.2

/-- An offer that is read is of the transaction of the last DISCOVER. -/
theorem handled_offer {p : Packet} {c c' : Client} {r : Request}
    (h : DhcpHandler cfg CONFIG_SYS_BOOTFILE_PREFIX p c = .offer c' r) :
    c.dhcp_state = .SELECTING ∧ p.bp_id = c.BootpID ∧ r.xid = c.BootpID ∧
      c' = { c with dhcp_state := .REQUESTING, params := readOptions cfg p c.params } := by
  rw [DhcpHandler] at h
  split at h
  · cases h
  · next hcheck =>
      have hid := bp_id_of_checkPkt hcheck
      split at h
      · next hstate =>
          split at h
          · obtain ⟨rfl, rfl⟩ := Handled.offer.inj h
            exact ⟨hstate, hid, hid, rfl⟩
          · cases h
      · split at h <;> cases h
      · cases h

/-- An acknowledgement that is read is of the transaction of the last DISCOVER. -/
theorem handled_bound {p : Packet} {c c' : Client}
    (h : DhcpHandler cfg CONFIG_SYS_BOOTFILE_PREFIX p c = .bound c') :
    c.dhcp_state = .REQUESTING ∧ p.bp_id = c.BootpID ∧
      DhcpMessageType (packetOf p.items) (encode p.items).length 0 = some (DHCP_ACK.toNat : Int) ∧
      c'.dhcp_state = .BOUND ∧ c'.BootpID = c.BootpID ∧ c'.NetOurIP = p.bp_yiaddr ∧
      c'.params = readOptions cfg p c.params := by
  rw [DhcpHandler] at h
  split at h
  · cases h
  · next hcheck =>
      have hid := bp_id_of_checkPkt hcheck
      split at h
      · split at h <;> cases h
      · next hstate =>
          split at h
          · next htype =>
              obtain rfl := Handled.bound.inj h
              exact ⟨hstate, hid, htype, rfl, rfl, rfl, rfl⟩
          · cases h
      · cases h

/-! ## The invariant -/

/-- What holds of a link in every run: whose packets are which, and of the transactions that the
client has begun. -/
structure Inv (cfg : Config) (initial : Params) (l : Link) : Prop where
  params : l.client.params = reads cfg l.accepted initial
  accepted : ∀ m ∈ l.accepted, m ∈ l.sent
  good : ∀ m ∈ l.sent, m.packet.Good cfg
  offers : ∀ m ∈ l.sent, m.answers = none → m.packet.HasType DHCP_OFFER
  answers : ∀ m ∈ l.sent, ∀ r, m.answers = some r → r ∈ l.requests ∧ m.packet.bp_id = r.xid ∧
    m.server = r.serverId ∧ (m.packet.HasType DHCP_ACK ∨ m.packet.HasType DHCP_NAK)
  unique : ∀ m ∈ l.sent, ∀ m' ∈ l.sent, ∀ r, m.answers = some r → m'.answers = some r → m' = m
  known : ∀ r ∈ l.requests, r.xid ∈ l.discovers
  selecting : l.client.dhcp_state = .SELECTING → l.client.BootpID ∈ l.discovers ∧
    ∀ r ∈ l.requests, r.xid ≠ l.client.BootpID
  requesting : l.client.dhcp_state = .REQUESTING → ∃ r, l.requests.getLast? = some r ∧
    ∀ r' ∈ l.requests, r'.xid = l.client.BootpID → r' = r
  bound : l.client.dhcp_state = .BOUND → ∃ m r, BoundBy initial l m r

/-- A new answer or offer leaves the binding as it is. -/
theorem BoundBy.send {initial : Params} {l : Link} {m : Sent} {r : Request}
    (h : BoundBy initial l m r) (s : Sent) (hs : s.answers ≠ some r) :
    BoundBy initial { l with sent := l.sent ++ [s] } m r where
  sent := List.mem_append_left _ h.sent
  ack := h.ack
  answers := h.answers
  last := h.last
  address := h.address
  once := forall_mem_concat h.once fun hr => absurd hr hs
  mask := h.mask.mono fun _ => List.mem_append_left _
  gateway := h.gateway.mono fun _ => List.mem_append_left _
  dns := h.dns.mono fun _ => List.mem_append_left _
  host := h.host.mono fun _ => List.mem_append_left _
  root := h.root.mono fun _ => List.mem_append_left _

/-- A server sends something. -/
theorem Inv.send {initial : Params} {l : Link} (h : Inv cfg initial l) (s : Sent)
    (hgood : s.packet.Good cfg) (hoffer : s.answers = none → s.packet.HasType DHCP_OFFER)
    (hanswer : ∀ r, s.answers = some r → r ∈ l.requests ∧ s.packet.bp_id = r.xid ∧
      s.server = r.serverId ∧ (s.packet.HasType DHCP_ACK ∨ s.packet.HasType DHCP_NAK))
    (honce : ∀ m ∈ l.sent, ∀ r, m.answers = some r → s.answers ≠ some r) :
    Inv cfg initial { l with sent := l.sent ++ [s] } where
  params := h.params
  accepted := fun m hm => List.mem_append_left _ (h.accepted m hm)
  good := forall_mem_concat h.good hgood
  offers := forall_mem_concat h.offers hoffer
  answers := forall_mem_concat h.answers hanswer
  unique := forall_mem_concat
    (fun m hm => forall_mem_concat (h.unique m hm) fun r hr hr' => absurd hr' (honce m hm r hr))
    (forall_mem_concat (fun m hm r hr hr' => absurd hr (honce m hm r hr')) fun _ _ _ => rfl)
  known := h.known
  selecting := h.selecting
  requesting := h.requesting
  bound := fun hstate => by
    obtain ⟨m, r, hbound⟩ := h.bound hstate
    exact ⟨m, r, hbound.send s (honce m hbound.sent r hbound.answers)⟩

/-- The client reads an offer. -/
theorem Inv.request {initial : Params} {l : Link} (h : Inv cfg initial l) {m : Sent} {c : Client}
    {r : Request} (hm : m ∈ l.sent)
    (handled : DhcpHandler cfg CONFIG_SYS_BOOTFILE_PREFIX m.packet l.client = .offer c r) :
    Inv cfg initial { l with
      client := c, requests := l.requests ++ [r], accepted := l.accepted ++ [m] } := by
  obtain ⟨hstate, -, hxid, rfl⟩ := handled_offer handled
  obtain ⟨hcurrent, hfresh⟩ := h.selecting hstate
  exact
    { params := by
        rw [reads, List.foldl_append, List.foldl_cons, List.foldl_nil]
        exact congrArg (readOptions cfg m.packet) h.params
      accepted := forall_mem_concat h.accepted hm
      good := h.good
      offers := h.offers
      answers := fun o ho r' hr' =>
        ⟨List.mem_append_left _ (h.answers o ho r' hr').1, (h.answers o ho r' hr').2⟩
      unique := h.unique
      known := forall_mem_concat h.known (hxid ▸ hcurrent)
      selecting := fun hs => nomatch hs
      requesting := fun _ => ⟨r, List.getLast?_concat,
        forall_mem_concat (fun r' hr' hx => absurd hx (hfresh r' hr')) fun _ => rfl⟩
      bound := fun hs => nomatch hs }

/-- The client reads an acknowledgement: it is one, and it answers the last REQUEST. -/
theorem Inv.acknowledged {initial : Params} {l : Link} (h : Inv cfg initial l) {m : Sent}
    {c : Client} (hm : m ∈ l.sent)
    (handled : DhcpHandler cfg CONFIG_SYS_BOOTFILE_PREFIX m.packet l.client = .bound c) :
    m.packet.HasType DHCP_ACK ∧ ∃ r, m.answers = some r ∧ l.requests.getLast? = some r := by
  obtain ⟨hstate, hid, htype, -⟩ := handled_bound handled
  rw [messageType_eq (h.good m hm)] at htype
  have hne : ∀ {type}, type ≠ DHCP_ACK → ¬ m.packet.HasType type := fun hne hhas => by
    rw [hhas.messageType, Option.some.injEq, Int.natCast_inj] at htype
    exact hne (BitVec.eq_of_toNat_eq htype)
  rcases hanswers : m.answers with _ | r
  · exact absurd (h.offers m hm hanswers) (hne (by decide))
  · obtain ⟨hknown, hxid, -, hack⟩ := h.answers m hm r hanswers
    obtain ⟨last, hlast, honly⟩ := h.requesting hstate
    rw [honly r hknown (hxid.symm.trans hid)]
    exact ⟨hack.resolve_right (hne (by decide)), last, rfl, hlast⟩

/-- The client reads an acknowledgement. -/
theorem Inv.bind {initial : Params} {l : Link} (h : Inv cfg initial l) {m : Sent} {c : Client}
    (hm : m ∈ l.sent)
    (handled : DhcpHandler cfg CONFIG_SYS_BOOTFILE_PREFIX m.packet l.client = .bound c)
    (hcarried : Carried (l.accepted ++ [m]) m.server) :
    Inv cfg initial { l with client := c, accepted := l.accepted ++ [m] } := by
  obtain ⟨hack, r, hanswers, hlast⟩ := h.acknowledged hm handled
  obtain ⟨-, -, -, hbound, -, haddress, hparams⟩ := handled_bound handled
  have haccepted : ∀ o ∈ l.accepted ++ [m], o ∈ l.sent := forall_mem_concat h.accepted hm
  have hreads : c.params = reads cfg (l.accepted ++ [m]) initial := by
    rw [hparams, h.params, reads, reads, List.foldl_append, List.foldl_cons, List.foldl_nil]
  have hsentBy : ∀ {α : Type} {π : Params → α} {g : List Byte → α} {code : Byte},
      (∀ found p file, π (dhcpDescribed cfg found { p with bp_file := file }) =
        ((found code).map g).getD (π p)) → code ∈ codes →
      SentBy { l with client := c, accepted := l.accepted ++ [m] } m code g (π c.params)
        (π initial) := fun hset hcode => by
    rw [hreads]
    exact reads_sentBy hset hcode (fun o ho => h.good o (haccepted o ho)) haccepted hcarried initial
  exact
    { params := hreads
      accepted := haccepted
      good := h.good
      offers := h.offers
      answers := h.answers
      unique := h.unique
      known := h.known
      selecting := fun hs => absurd (hbound.symm.trans hs) (by decide)
      requesting := fun hs => absurd (hbound.symm.trans hs) (by decide)
      bound := fun _ => ⟨m, r,
        { sent := hm
          ack := hack
          answers := hanswers
          last := hlast
          address := haddress
          once := fun m' hm' hr => h.unique m hm m' hm' r hanswers hr
          mask := hsentBy (fun _ _ _ => rfl) (by decide)
          gateway := hsentBy (fun _ _ _ => rfl) (by decide)
          dns := hsentBy (fun _ _ _ => rfl) (by decide)
          host := hsentBy (fun _ _ _ => rfl) (by decide)
          root := hsentBy (fun _ _ _ => rfl) (by decide) }⟩ }

/-- Every careful step keeps the invariant. -/
theorem Inv.step {initial : Params} {l l' : Link} {e : Event} (h : Inv cfg initial l)
    (step : CarefulStep cfg CONFIG_SYS_BOOTFILE_PREFIX ether l e l') : Inv cfg initial l' := by
  obtain ⟨step, careful⟩ := step
  cases step with
  | @restart now unbound =>
      exact
        { params := h.params
          accepted := h.accepted
          good := h.good
          offers := h.offers
          answers := h.answers
          unique := h.unique
          known := fun r hr => List.mem_append_left _ (h.known r hr)
          selecting := fun _ => ⟨List.mem_append_right _ (List.mem_singleton_self _),
            fun r hr hx => careful ((show r.xid = ether + now from hx) ▸ h.known r hr)⟩
          requesting := fun hs => nomatch hs
          bound := fun hs => nomatch hs }
  | @offer server p known once type =>
      exact h.send ⟨server, p, none⟩ careful (fun _ => type) (fun r hr => absurd hr (by simp))
        fun _ _ r _ => by simp
  | @answer server r p known own nonzero xid once type =>
      refine h.send ⟨server, p, some r⟩ careful (fun hnone => absurd hnone (by simp)) (fun r' hr' => ?_)
        fun m hm r' hr' hsame => ?_
      · obtain rfl : r = r' := Option.some.inj hr'
        exact ⟨known, xid, own.symm, type⟩
      · obtain rfl : r = r' := Option.some.inj hsame
        exact once m hm hr' ((h.answers m hm r hr').2.2.1.trans own)
  | ignored => exact h
  | request sent handled => exact h.request sent handled
  | bound sent handled =>
      obtain ⟨hstate, hid, -⟩ := handled_bound handled
      exact h.bind sent handled (careful hstate hid (h.acknowledged sent handled).1)

theorem inv_quiet (cfg : Config) (c : Client) : Inv cfg c.params (quiet c) where
  params := rfl
  accepted := fun _ hm => absurd hm List.not_mem_nil
  good := fun _ hm => absurd hm List.not_mem_nil
  offers := fun _ hm => absurd hm List.not_mem_nil
  answers := fun _ hm => absurd hm List.not_mem_nil
  unique := fun _ hm => absurd hm List.not_mem_nil
  known := fun _ hr => absurd hr List.not_mem_nil
  selecting := fun hs => nomatch hs
  requesting := fun hs => nomatch hs
  bound := fun hs => nomatch hs

/-- In every careful run that binds the client, it is bound by an acknowledgement of its last
REQUEST, and what it uses is from the server that sent it. -/
theorem bound_consistent {c : Client} {l : Link} {events : List Event}
    (run : Run (CarefulStep cfg CONFIG_SYS_BOOTFILE_PREFIX ether) (quiet c) events l)
    (hbound : l.client.dhcp_state = .BOUND) : ∃ m r, BoundBy c.params l m r :=
  (run.invariant (I := Inv cfg c.params) (fun _ _ _ h step => h.step step)
    (inv_quiet cfg c)).bound hbound

/-- A client without parameters. -/
def fresh : Client := ⟨.INIT, 0#32, unset, 0#32, 0#32, []⟩

/-- A reply in a transaction, with an address and options. -/
def reply (xid address : U32) (items : List Item) : Packet :=
  ⟨68, 67, 300, OP_BOOTREPLY, HWT_ETHER, HWL_ETHER, xid, address, 0#32, [], items⟩

/-- What server 1 sends, with a subnet mask. -/
def offer₁ : Packet := reply 7#32 9#32 [.option 53 [2], .option 54 [0, 0, 0, 1], mask]
def ack₁ : Packet := reply 7#32 9#32 [.option 53 [5], .option 54 [0, 0, 0, 1], mask]

/-- What server 2 sends in a later transaction, without. -/
def offer₂ : Packet := reply 3007#32 8#32 [.option 53 [2], .option 54 [0, 0, 0, 2]]
def ack₂ : Packet := reply 3007#32 8#32 [.option 53 [5], .option 54 [0, 0, 0, 2]]

theorem good_offer₁ : offer₁.Good plainConfig :=
  ⟨by decide, ⟨by decide, by decide, by decide⟩, by unfold LongEnough; decide, by decide⟩

theorem good_ack₁ : ack₁.Good plainConfig :=
  ⟨by decide, ⟨by decide, by decide, by decide⟩, by unfold LongEnough; decide, by decide⟩

/-- The REQUESTs for them. -/
def request₁ : Request := ⟨7#32, 1#32, 9#32⟩
def request₂ : Request := ⟨3007#32, 2#32, 8#32⟩

/-- A server offers an address and acknowledges it. -/
theorem bound_consistent_first :
    ∃ l : Link, l.client.dhcp_state = .BOUND ∧ ∃ m r, BoundBy fresh.params l m r := by
  refine ⟨_, ?_, @bound_consistent plainConfig [] 7#32 fresh _ _
    (.cons ⟨@Step.restart plainConfig [] 7#32 _ 0#32 (by decide), by unfold Careful; decide⟩
    (.cons ⟨@Step.offer plainConfig [] 7#32 _ 1#32 offer₁ (by decide)
      (fun m hm => absurd hm List.not_mem_nil) rfl, good_offer₁⟩
    (.cons ⟨.request List.mem_cons_self rfl, fun h => nomatch h⟩
    (.cons ⟨@Step.answer plainConfig [] 7#32 _ 1#32 request₁ ack₁ (by decide) rfl (by decide)
      rfl (fun m hm h => by
        rw [List.mem_singleton.1 hm] at h
        exact absurd h (by simp)) (Or.inl rfl), good_ack₁⟩
    (.cons ⟨.bound (List.mem_cons_of_mem _ List.mem_cons_self) rfl, fun _ _ _ => ?_⟩
    (.nil _)))))) rfl⟩
  · rfl
  · intro pre o post hsplit hserver
    have ho : o ∈ pre ++ o :: post := List.mem_append_right _ List.mem_cons_self
    rw [← hsplit] at ho
    change o ∈ [Sent.mk 1#32 offer₁ none, Sent.mk 1#32 ack₁ (some request₁)] at ho
    rw [List.mem_pair] at ho
    rcases ho with rfl | rfl
    · exact absurd rfl hserver
    · exact absurd rfl hserver

/-- The client reads the offer of server 1, starts again, and is bound by server 2: the subnet mask
that it uses is that of server 1. -/
theorem not_bound_consistent :
    ∃ l events, Run (Step plainConfig [] 7#32) (quiet fresh) events l ∧
      l.client.dhcp_state = .BOUND ∧ l.client.NetOurIP = ack₂.bp_yiaddr ∧
      fresh.params.NetOurSubnetMask = 0#32 ∧
      l.client.params.NetOurSubnetMask = 0xffffff00#32 ∧
      ∀ m ∈ l.sent, m.packet.bp_yiaddr = ack₂.bp_yiaddr → ¬ m.Carries 1#8 := by
  refine ⟨_, _, .cons (@Step.restart plainConfig [] 7#32 _ 0#32 (by decide))
    (.cons (@Step.offer plainConfig [] 7#32 _ 1#32 offer₁ (by decide)
      (fun m hm => absurd hm List.not_mem_nil) rfl)
    (.cons (.request List.mem_cons_self rfl)
    (.cons (@Step.restart plainConfig [] 7#32 _ 3000#32 (by decide))
    (.cons (@Step.offer plainConfig [] 7#32 _ 2#32 offer₂ (by decide) (fun m hm _ h => by
        rw [List.mem_singleton.1 hm] at h
        exact absurd h (by decide)) rfl)
    (.cons (.request (List.mem_cons_of_mem _ List.mem_cons_self) rfl)
    (.cons (@Step.answer plainConfig [] 7#32 _ 2#32 request₂ ack₂ (by decide) rfl (by decide)
      rfl (fun m hm h => by
        rcases List.mem_pair.1 hm with rfl | rfl
        · exact absurd h (by simp)
        · exact absurd h (by simp)) (Or.inl rfl))
    (.cons (.bound (List.mem_cons_of_mem _ (List.mem_cons_of_mem _ List.mem_cons_self)) rfl)
    (.nil _)))))))), rfl, rfl, rfl, ?_, ?_⟩
  · decide
  · intro m hm haddress
    change m ∈ [Sent.mk 1#32 offer₁ none, Sent.mk 2#32 offer₂ none,
      Sent.mk 2#32 ack₂ (some request₂)] at hm
    simp only [List.mem_cons, List.not_mem_nil, or_false] at hm
    rcases hm with rfl | rfl | rfl
    · exact absurd haddress (by decide)
    · exact not_not.2 rfl
    · exact not_not.2 rfl

end UBoot.Dhcp
