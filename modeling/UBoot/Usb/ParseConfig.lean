/-
# The configuration descriptor of a USB device

`usb_get_configuration_no`, `usb_parse_config` and `usb_set_maxpacket` of `common/usb.c` on a
little-endian machine. All lengths are bytes of the device. The parser goes from descriptor to
descriptor by `bLength`; what it can be given so that it comes to an end, without a copy that is too
long, is a condition on the descriptors it meets on its way.
-/

import UBoot.LibGeneric.Crc32

namespace UBoot.Usb

def USB_BUFSIZ : Nat := 512
def USB_MAXINTERFACES : Nat := 8
def USB_MAXENDPOINTS : Nat := 16
def USB_DT_CONFIG : Byte := 2
def USB_DT_INTERFACE : Byte := 4
def USB_DT_ENDPOINT : Byte := 5
def USB_DT_CONFIG_SIZE : Nat := 9
def USB_DT_INTERFACE_SIZE : Nat := 9
def USB_DT_ENDPOINT_SIZE : Nat := 7

/-! ## Fields

A descriptor is given by its bytes. Where fewer have been copied, the device structure is still
zero.
-/

def bLength (d : List Byte) : Nat := (d.getD 0 0).toNat
def bDescriptorType (d : List Byte) : Byte := d.getD 1 0
def wTotalLength (d : List Byte) : Nat := (d.getD 2 0).toNat + 2 ^ 8 * (d.getD 3 0).toNat
def bNumInterfaces (d : List Byte) : Nat := (d.getD 4 0).toNat
def bInterfaceNumber (d : List Byte) : Byte := d.getD 2 0
def bNumEndpoints (d : List Byte) : Nat := (d.getD 4 0).toNat
def bEndpointAddress (d : List Byte) : Byte := d.getD 2 0
def bmAttributes (d : List Byte) : Byte := d.getD 3 0
def wMaxPacketSize (d : List Byte) : Nat := (d.getD 4 0).toNat + 2 ^ 8 * (d.getD 5 0).toNat

/-- `struct usb_interface`; `no_of_ep` is the number of endpoints in the list. -/
structure Interface where
  desc : List Byte
  num_altsetting : Nat
  ep_desc : List (List Byte)

/-- `struct usb_config`; `no_of_if` is the number of interfaces in the list. -/
structure Config where
  desc : List Byte
  if_desc : List Interface

/-! ## From the device to the buffer -/

/-- The configuration descriptor as a device returns it, in at most as many bytes as it is asked
for. A request can fail. -/
structure Responder where
  usb_get_descriptor : Nat → Option (List Byte)
  length_le : ∀ size, ∀ reply ∈ usb_get_descriptor size, reply.length ≤ size

/-- What has been received in the buffer, if there is no error. -/
def usb_get_configuration_no (r : Responder) : Option (List Byte) := do
  let config ← r.usb_get_descriptor 9
  if config.length < 9 then none
  else
    let tmp := wTotalLength config
    if USB_BUFSIZ < tmp then none else r.usb_get_descriptor tmp

theorem usb_get_configuration_no_length {r : Responder} {buffer : List Byte}
    (h : buffer ∈ usb_get_configuration_no r) : buffer.length ≤ USB_BUFSIZ := by
  obtain ⟨config, -, hrest⟩ := Option.bind_eq_some_iff.mp h
  split at hrest
  · cases hrest
  · dsimp only at hrest
    split at hrest
    · cases hrest
    · exact (r.length_le _ _ hrest).trans (by omega)

/-! ## The parser -/

/-- Copy from where the bytes begin, to a destination of `size` bytes. There is no result where it
reads behind what has been received or writes behind the destination. -/
def memcpy (size : Nat) (head : List Byte) (n : Nat) : Option (List Byte) :=
  if n ≤ size ∧ n ≤ head.length then some (head.take n) else none

/-- What is changed in the loop, apart from the place. At first `curr_if_num` is -1. -/
structure State where
  config : Config
  curr_if_num : Option Byte

/-- `case USB_DT_INTERFACE`. -/
def interfaceCase (head : List Byte) (s : State) : Option State := do
  let number ← head[2]?
  if s.curr_if_num ≠ some number then
    if s.config.if_desc.length < USB_MAXINTERFACES then
      let desc ← memcpy USB_DT_INTERFACE_SIZE head (bLength head)
      some ⟨⟨s.config.desc, s.config.if_desc ++ [⟨desc, 1, []⟩]⟩, some (bInterfaceNumber desc)⟩
    else none
  else
    -- found alternate setting for the interface
    some ⟨⟨s.config.desc, s.config.if_desc.modifyLast fun f =>
      { f with num_altsetting := (f.num_altsetting + 1) % 2 ^ 8 }⟩, s.curr_if_num⟩

/-- `case USB_DT_ENDPOINT`. In front of the first interface `ifno` is -1. -/
def endpointCase (head : List Byte) (s : State) : Option State := do
  let f ← s.config.if_desc.getLast?
  if f.ep_desc.length < USB_MAXENDPOINTS then
    let desc ← memcpy USB_DT_ENDPOINT_SIZE head (bLength head)
    some ⟨⟨s.config.desc, s.config.if_desc.modifyLast fun f =>
      { f with ep_desc := f.ep_desc ++ [desc] }⟩, s.curr_if_num⟩
  else none

/-- The `switch`, up to the end that comes with an unknown descriptor of length zero. -/
def switch (head : List Byte) (s : State) : Option State :=
  if bDescriptorType head = USB_DT_INTERFACE then interfaceCase head s
  else if bDescriptorType head = USB_DT_ENDPOINT then endpointCase head s
  else some s

def Unknown (head : List Byte) : Prop :=
  bDescriptorType head ≠ USB_DT_INTERFACE ∧ bDescriptorType head ≠ USB_DT_ENDPOINT

instance (head : List Byte) : Decidable (Unknown head) :=
  inferInstanceAs (Decidable (_ ∧ _))

/-- How a call ends. `outside` is a read behind what has been received or a write outside the
destination. -/
inductive Outcome
  | outside
  | returned (ret : Int) (config : Config)

/-- The loop, at a place of the buffer. With no fuel it is still running. -/
def parseLoop (buffer : List Byte) : Nat → Nat → State → Option Outcome
  | 0, _, _ => none
  | fuel + 1, index, s =>
      if index + 1 < wTotalLength s.config.desc then
        let head := buffer.drop index
        if head.length < 2 then some .outside
        else if Unknown head ∧ bLength head = 0 then some (.returned 1 s.config)
        else
          match switch head s with
          | none => some .outside
          | some s' => parseLoop buffer fuel (index + bLength head) s'
      else some (.returned 1 s.config)

/-- The configuration of a device that has not been parsed before. -/
def noConfig : Config := ⟨[], []⟩

def usb_parse_config (fuel : Nat) (buffer : List Byte) : Option Outcome :=
  if buffer.length < 2 then some .outside
  else if bDescriptorType buffer ≠ USB_DT_CONFIG then some (.returned (-1) noConfig)
  else
    match memcpy USB_DT_CONFIG_SIZE buffer (bLength buffer) with
    | none => some .outside
    | some desc => parseLoop buffer fuel (bLength desc) ⟨⟨desc, []⟩, none⟩

/-! ## The packet sizes -/

/-- `epmaxpacketin` and `epmaxpacketout`. -/
structure MaxPackets where
  input : Nat → Nat
  output : Nat → Nat

def usb_set_maxpacket_ep (m : MaxPackets) (ep : List Byte) : MaxPackets :=
  let b := (bEndpointAddress ep &&& 0x0f).toNat
  if bmAttributes ep &&& 0x03 = 0 then
    -- Control => bidirectional
    ⟨Function.update m.input b (wMaxPacketSize ep), Function.update m.output b (wMaxPacketSize ep)⟩
  else if bEndpointAddress ep &&& 0x80 = 0 then
    { m with output := Function.update m.output b (max (m.output b) (wMaxPacketSize ep)) }
  else { m with input := Function.update m.input b (max (m.input b) (wMaxPacketSize ep)) }

/-- The endpoints that `usb_set_maxpacket` goes through. Those that are not recorded are zero. -/
def considered (config : Config) : List (List Byte) :=
  (List.range (bNumInterfaces config.desc)).flatMap fun i =>
    let f := config.if_desc.getD i ⟨[], 0, []⟩
    (List.range (bNumEndpoints f.desc)).map fun ii => f.ep_desc.getD ii []

def usb_set_maxpacket (m : MaxPackets) (config : Config) : MaxPackets :=
  (considered config).foldl usb_set_maxpacket_ep m

/-! ## The descriptors on the way -/

/-- What is in the buffer from each of the places on that `bLength` leads to. -/
def visited (buffer : List Byte) (total index : Nat) : List (List Byte) :=
  if index + 1 < total then
    let head := buffer.drop index
    head :: if bLength head = 0 then [] else visited buffer total (index + bLength head)
  else []
termination_by total - index
decreasing_by
  have hpos : 0 < bLength (buffer.drop index) := Nat.pos_of_ne_zero (by assumption)
  omega

/-- How many interfaces there have been, how many endpoints in the last one of them, and its
number. -/
structure Tally where
  interfaces : Nat
  endpoints : Nat
  number : Option Byte

/-- An interface descriptor with another number than the one before opens an interface. Its number
is taken for zero where the descriptor ends in front of it. -/
def Tally.add (t : Tally) (head : List Byte) : Tally :=
  if bDescriptorType head = USB_DT_INTERFACE then
    if t.number = some (bInterfaceNumber head) then t
    else ⟨t.interfaces + 1, 0, some (bInterfaceNumber (head.take (bLength head)))⟩
  else if bDescriptorType head = USB_DT_ENDPOINT then { t with endpoints := t.endpoints + 1 }
  else t

/-- There is room for `size` bytes, and the descriptor has been received. -/
def Copied (size : Nat) (head : List Byte) : Prop := bLength head ≤ size ∧ bLength head ≤ head.length

/-- A descriptor that can follow: the bytes of it that are read have been received, and if it is one
of an interface or an endpoint, it has a length, and there is room for it. -/
structure Tally.Allows (t : Tally) (head : List Byte) : Prop where
  header : 2 ≤ head.length
  known : ¬Unknown head → 0 < bLength head
  interface : bDescriptorType head = USB_DT_INTERFACE → 3 ≤ head.length ∧
    (t.number ≠ some (bInterfaceNumber head) →
      t.interfaces < USB_MAXINTERFACES ∧ Copied USB_DT_INTERFACE_SIZE head)
  endpoint : bDescriptorType head = USB_DT_ENDPOINT →
    0 < t.interfaces ∧ t.endpoints < USB_MAXENDPOINTS ∧ Copied USB_DT_ENDPOINT_SIZE head

/-- Each of the descriptors can follow those in front of it. -/
def Accepted : Tally → List (List Byte) → Prop
  | _, [] => True
  | t, head :: heads => t.Allows head ∧ Accepted (t.add head) heads

/-- A buffer that is not a configuration descriptor, or one whose descriptors are all accepted, up
to the total length. -/
structure Accepts (buffer : List Byte) : Prop where
  header : 2 ≤ buffer.length
  config : bDescriptorType buffer = USB_DT_CONFIG → Copied USB_DT_CONFIG_SIZE buffer ∧
    Accepted ⟨0, 0, none⟩
      (visited buffer (wTotalLength (buffer.take (bLength buffer))) (bLength buffer))

/-! ## The switch -/

def tally (s : State) : Tally :=
  ⟨s.config.if_desc.length, (s.config.if_desc.getLast?.map fun f => f.ep_desc.length).getD 0,
    s.curr_if_num⟩

@[simp] theorem tally_number (s : State) : (tally s).number = s.curr_if_num := rfl

/-- The length is the first byte, so that it is among those it says. -/
theorem bLength_take (d : List Byte) : bLength (d.take (bLength d)) = bLength d := by
  cases d with
  | nil => rw [List.take_nil]
  | cons b d =>
      cases h : bLength (b :: d) with
      | zero => rfl
      | succ n => exact h

theorem memcpy_eq_some {size n : Nat} {head desc : List Byte} :
    memcpy size head n = some desc ↔ (n ≤ size ∧ n ≤ head.length) ∧ head.take n = desc := by
  rw [memcpy]
  split <;> simp_all

theorem memcpy_eq_none {size : Nat} {head : List Byte} (h : ¬Copied size head) :
    memcpy size head (bLength head) = none := if_neg h

/-- What an interface descriptor does: it is a new one, or another setting. -/
theorem interfaceCase_eq_some {head : List Byte} {s s' : State} :
    interfaceCase head s = some s' ↔ 3 ≤ head.length ∧
      ((s.curr_if_num ≠ some (bInterfaceNumber head) ∧
          s.config.if_desc.length < USB_MAXINTERFACES ∧ Copied USB_DT_INTERFACE_SIZE head ∧
          s' = ⟨⟨s.config.desc, s.config.if_desc ++ [⟨head.take (bLength head), 1, []⟩]⟩,
            some (bInterfaceNumber (head.take (bLength head)))⟩) ∨
        (s.curr_if_num = some (bInterfaceNumber head) ∧
          s' = ⟨⟨s.config.desc, s.config.if_desc.modifyLast fun f =>
            { f with num_altsetting := (f.num_altsetting + 1) % 2 ^ 8 }⟩, s.curr_if_num⟩)) := by
  rw [interfaceCase, Option.bind_eq_bind, Option.bind_eq_some_iff]
  constructor
  · rintro ⟨number, hnumber, hrest⟩
    obtain ⟨hlen, rfl⟩ := List.getElem?_eq_some_iff.mp hnumber
    have hget : head[2] = bInterfaceNumber head := (List.getD_eq_getElem _ _ hlen).symm
    rw [hget] at hrest
    refine ⟨hlen, ?_⟩
    split at hrest
    · next hnew =>
        split at hrest
        · next hroom =>
            obtain ⟨desc, hcopy, hs'⟩ := Option.bind_eq_some_iff.mp hrest
            obtain ⟨hcopied, rfl⟩ := memcpy_eq_some.1 hcopy
            exact .inl ⟨hnew, hroom, hcopied, (Option.some.inj hs').symm⟩
        · cases hrest
    · next hsame => exact .inr ⟨not_not.mp hsame, (Option.some.inj hrest).symm⟩
  · rintro ⟨hlen, hcases⟩
    have hget : head[2]? = some (bInterfaceNumber head) := by
      rw [List.getElem?_eq_getElem hlen, bInterfaceNumber, List.getD_eq_getElem _ _ hlen]
    refine ⟨_, hget, ?_⟩
    obtain ⟨hnew, hroom, hcopied, rfl⟩ | ⟨hsame, rfl⟩ := hcases
    · rw [if_pos hnew, if_pos hroom, memcpy_eq_some.2 ⟨hcopied, rfl⟩]
      rfl
    · rw [if_neg (not_not.mpr hsame)]

/-- What an endpoint descriptor does. -/
theorem endpointCase_eq_some {head : List Byte} {s s' : State} :
    endpointCase head s = some s' ↔ ∃ f, s.config.if_desc.getLast? = some f ∧
      f.ep_desc.length < USB_MAXENDPOINTS ∧ Copied USB_DT_ENDPOINT_SIZE head ∧
      s' = ⟨⟨s.config.desc, s.config.if_desc.modifyLast fun f =>
        { f with ep_desc := f.ep_desc ++ [head.take (bLength head)] }⟩, s.curr_if_num⟩ := by
  rw [endpointCase, Option.bind_eq_bind, Option.bind_eq_some_iff]
  refine exists_congr fun f => and_congr_right fun _ => ?_
  constructor
  · intro h
    split at h
    · next hroom =>
        obtain ⟨desc, hcopy, hs'⟩ := Option.bind_eq_some_iff.mp h
        obtain ⟨hcopied, rfl⟩ := memcpy_eq_some.1 hcopy
        exact ⟨hroom, hcopied, (Option.some.inj hs').symm⟩
    · cases h
  · rintro ⟨hroom, hcopied, rfl⟩
    rw [if_pos hroom, memcpy_eq_some.2 ⟨hcopied, rfl⟩]
    rfl

theorem switch_interface {head : List Byte} (h : bDescriptorType head = USB_DT_INTERFACE)
    (s : State) : switch head s = interfaceCase head s := if_pos h

theorem switch_endpoint {head : List Byte} (h : bDescriptorType head = USB_DT_ENDPOINT)
    (s : State) : switch head s = endpointCase head s := by
  rw [switch, if_neg (by rw [h]; decide), if_pos h]

theorem switch_unknown {head : List Byte} (h : Unknown head) (s : State) :
    switch head s = some s := by
  rw [switch, if_neg h.1, if_neg h.2]

/-- The three kinds of descriptors. -/
theorem kind_cases (head : List Byte) : bDescriptorType head = USB_DT_INTERFACE ∨
    bDescriptorType head = USB_DT_ENDPOINT ∨ Unknown head := by
  rw [Unknown]
  tauto

/-- The interfaces and the endpoints are counted, and the number is kept. -/
theorem tally_switch {head : List Byte} {s s' : State} (h : switch head s = some s') :
    tally s' = (tally s).add head := by
  obtain hkind | hkind | hkind := kind_cases head
  · rw [switch_interface hkind] at h
    obtain ⟨-, ⟨hnew, -, -, rfl⟩ | ⟨hsame, rfl⟩⟩ := interfaceCase_eq_some.1 h
    · rw [Tally.add, if_pos hkind, tally_number, if_neg hnew]
      simp [tally]
    · rw [Tally.add, if_pos hkind, tally_number, if_pos hsame]
      obtain hnil | ⟨fs, f, hfs⟩ := List.eq_nil_or_concat s.config.if_desc
      · simp [tally, hnil, List.modifyLast, List.modifyLast.go]
      · simp [tally, hfs, List.modifyLast_concat]
  · rw [switch_endpoint hkind] at h
    obtain ⟨f, hlast, -, -, rfl⟩ := endpointCase_eq_some.1 h
    obtain ⟨fs, hfs⟩ := List.getLast?_eq_some_iff.mp hlast
    rw [Tally.add, if_neg (by rw [hkind]; decide), if_pos hkind]
    simp [tally, hfs, List.modifyLast_concat]
  · rw [switch_unknown hkind] at h
    obtain rfl := Option.some.inj h
    rw [Tally.add, if_neg hkind.1, if_neg hkind.2]

/-- The total length stays. -/
theorem switch_desc {head : List Byte} {s s' : State} (h : switch head s = some s') :
    s'.config.desc = s.config.desc := by
  obtain hkind | hkind | hkind := kind_cases head
  · rw [switch_interface hkind] at h
    obtain ⟨-, ⟨-, -, -, rfl⟩ | ⟨-, rfl⟩⟩ := interfaceCase_eq_some.1 h
    · rfl
    · rfl
  · rw [switch_endpoint hkind] at h
    obtain ⟨f, -, -, -, rfl⟩ := endpointCase_eq_some.1 h
    rfl
  · rw [switch_unknown hkind] at h
    obtain rfl := Option.some.inj h
    rfl

/-- With a length, what is allowed is what the switch can do. -/
theorem allows_iff {head : List Byte} (s : State) (hlen : 2 ≤ head.length)
    (hknown : ¬Unknown head → 0 < bLength head) :
    (tally s).Allows head ↔ ∃ s', switch head s = some s' := by
  obtain hkind | hkind | hkind := kind_cases head
  · rw [switch_interface hkind]
    constructor
    · intro h
      obtain ⟨hthird, hroom⟩ := h.interface hkind
      by_cases hnew : s.curr_if_num = some (bInterfaceNumber head)
      · exact ⟨_, interfaceCase_eq_some.2 ⟨hthird, .inr ⟨hnew, rfl⟩⟩⟩
      · obtain ⟨hroom, hcopied⟩ := hroom hnew
        exact ⟨_, interfaceCase_eq_some.2 ⟨hthird, .inl ⟨hnew, hroom, hcopied, rfl⟩⟩⟩
    · rintro ⟨s', h⟩
      obtain ⟨hthird, hcases⟩ := interfaceCase_eq_some.1 h
      refine ⟨hlen, hknown, fun _ => ⟨hthird, fun hnew => ?_⟩, fun hother => ?_⟩
      · obtain ⟨-, hroom, hcopied, -⟩ | ⟨hsame, -⟩ := hcases
        · exact ⟨hroom, hcopied⟩
        · exact absurd hsame hnew
      · rw [hkind] at hother
        exact absurd hother (by decide)
  · rw [switch_endpoint hkind]
    constructor
    · intro h
      obtain ⟨hsome, hroom, hcopied⟩ := h.endpoint hkind
      obtain ⟨f, hlast⟩ := List.getLast?_isSome.mpr (List.ne_nil_of_length_pos hsome)
        |> Option.isSome_iff_exists.mp
      rw [tally, hlast] at hroom
      exact ⟨_, endpointCase_eq_some.2 ⟨f, hlast, hroom, hcopied, rfl⟩⟩
    · rintro ⟨s', h⟩
      obtain ⟨f, hlast, hroom, hcopied, -⟩ := endpointCase_eq_some.1 h
      refine ⟨hlen, hknown, fun hother => ?_, fun _ => ⟨?_, ?_, hcopied⟩⟩
      · rw [hkind] at hother
        exact absurd hother (by decide)
      · exact List.length_pos_of_mem (List.mem_of_getLast? hlast)
      · rw [tally, hlast]
        exact hroom
  · refine iff_of_true ⟨hlen, hknown, fun h => absurd h hkind.1, fun h => absurd h hkind.2⟩ ?_
    exact ⟨s, switch_unknown hkind s⟩

/-! ## The loop -/

section Loop

variable {buffer : List Byte} {index : Nat} {s : State}

theorem parseLoop_done (h : ¬index + 1 < wTotalLength s.config.desc) (fuel : Nat) :
    parseLoop buffer (fuel + 1) index s = some (.returned 1 s.config) := if_neg h

theorem parseLoop_inside (h : index + 1 < wTotalLength s.config.desc) (fuel : Nat) :
    parseLoop buffer (fuel + 1) index s =
      if (buffer.drop index).length < 2 then some .outside
      else if Unknown (buffer.drop index) ∧ bLength (buffer.drop index) = 0 then
        some (.returned 1 s.config)
      else
        match switch (buffer.drop index) s with
        | none => some .outside
        | some s' => parseLoop buffer fuel (index + bLength (buffer.drop index)) s' := if_pos h

theorem parseLoop_unknown (h : index + 1 < wTotalLength s.config.desc)
    (hlen : 2 ≤ (buffer.drop index).length) (hkind : Unknown (buffer.drop index))
    (hzero : bLength (buffer.drop index) = 0) (fuel : Nat) :
    parseLoop buffer (fuel + 1) index s = some (.returned 1 s.config) := by
  rw [parseLoop_inside h, if_neg (Nat.not_lt.mpr hlen), if_pos ⟨hkind, hzero⟩]

theorem parseLoop_next (h : index + 1 < wTotalLength s.config.desc)
    (hlen : 2 ≤ (buffer.drop index).length)
    (hknown : ¬(Unknown (buffer.drop index) ∧ bLength (buffer.drop index) = 0)) {s' : State}
    (hswitch : switch (buffer.drop index) s = some s') (fuel : Nat) :
    parseLoop buffer (fuel + 1) index s =
      parseLoop buffer fuel (index + bLength (buffer.drop index)) s' := by
  rw [parseLoop_inside h, if_neg (Nat.not_lt.mpr hlen), if_neg hknown, hswitch]

/-- A step of a run that returns. -/
theorem parseLoop_cases {fuel : Nat} {ret : Int} {config : Config}
    (h : index + 1 < wTotalLength s.config.desc)
    (hrun : parseLoop buffer (fuel + 1) index s = some (.returned ret config)) :
    2 ≤ (buffer.drop index).length ∧
      (Unknown (buffer.drop index) ∧ bLength (buffer.drop index) = 0 ∧ config = s.config ∨
        ¬(Unknown (buffer.drop index) ∧ bLength (buffer.drop index) = 0) ∧
          ∃ s', switch (buffer.drop index) s = some s' ∧
            parseLoop buffer fuel (index + bLength (buffer.drop index)) s' =
              some (.returned ret config)) := by
  rw [parseLoop_inside h] at hrun
  split at hrun
  · cases hrun
  · next hlen =>
      refine ⟨Nat.not_lt.mp hlen, ?_⟩
      split at hrun
      · next hend =>
          cases hrun
          exact .inl ⟨hend.1, hend.2, rfl⟩
      · next hgo =>
          split at hrun
          · cases hrun
          · next s' hswitch => exact .inr ⟨hgo, s', hswitch, hrun⟩

/-- An interface or an endpoint descriptor of length zero is met again and again. -/
theorem never_returns (h : index + 1 < wTotalLength s.config.desc)
    (hkind : ¬Unknown (buffer.drop index)) (hzero : bLength (buffer.drop index) = 0) (fuel : Nat)
    (ret : Int) (config : Config) :
    parseLoop buffer fuel index s ≠ some (.returned ret config) := by
  induction fuel generalizing s with
  | zero => exact nofun
  | succ fuel ih =>
      intro hrun
      obtain ⟨-, ⟨hunknown, -⟩ | ⟨-, s', hswitch, hrest⟩⟩ := parseLoop_cases h hrun
      · exact hkind hunknown
      · rw [hzero, Nat.add_zero] at hrest
        exact ih (by rwa [switch_desc hswitch]) hrest

/-- The loop returns exactly if the descriptors on its way are accepted. -/
theorem parseLoop_returns_iff (total : Nat) (htotal : wTotalLength s.config.desc = total) :
    (∃ fuel ret config, parseLoop buffer fuel index s = some (.returned ret config)) ↔
      Accepted (tally s) (visited buffer total index) := by
  induction index using visited.induct buffer total generalizing s with
  | case1 index hin head =>
      rename_i ih
      rw [visited, if_pos hin]
      have hin' : index + 1 < wTotalLength s.config.desc := by rwa [htotal]
      have hnext {s' : State} (hswitch : switch (buffer.drop index) s = some s')
          (hpos : ¬bLength (buffer.drop index) = 0) : (∃ fuel ret config, parseLoop buffer fuel
            (index + bLength (buffer.drop index)) s' = some (.returned ret config)) ↔
          Accepted (tally s') (visited buffer total (index + bLength (buffer.drop index))) :=
        ih hpos (by rwa [switch_desc hswitch])
      dsimp only [Accepted]
      constructor
      · rintro ⟨fuel, ret, config, hrun⟩
        have hknown : ¬Unknown (buffer.drop index) → 0 < bLength (buffer.drop index) := by
          intro hkind
          by_contra hzero
          exact never_returns hin' hkind (by omega) fuel ret config hrun
        cases fuel with
        | zero => cases hrun
        | succ fuel =>
            obtain ⟨hlen, ⟨hkind, hzero, -⟩ | ⟨hgo, s', hswitch, hrest⟩⟩ := parseLoop_cases hin' hrun
            · rw [if_pos hzero]
              exact ⟨(allows_iff s hlen hknown).mpr ⟨s, switch_unknown hkind s⟩, trivial⟩
            · have hpos : ¬bLength (buffer.drop index) = 0 := by
                intro hzero
                by_cases hkind : Unknown (buffer.drop index)
                · exact hgo ⟨hkind, hzero⟩
                · exact absurd hzero (hknown hkind).ne'
              rw [if_neg hpos]
              refine ⟨(allows_iff s hlen hknown).mpr ⟨s', hswitch⟩, ?_⟩
              rw [← tally_switch hswitch]
              exact (hnext hswitch hpos).mp ⟨fuel, ret, config, hrest⟩
      · rintro ⟨hallows, hrest⟩
        obtain ⟨s', hswitch⟩ := (allows_iff s hallows.header hallows.known).mp hallows
        by_cases hzero : bLength (buffer.drop index) = 0
        · have hkind : Unknown (buffer.drop index) := by
            by_contra hkind
            exact absurd hzero (hallows.known hkind).ne'
          exact ⟨1, 1, _, parseLoop_unknown hin' hallows.header hkind hzero 0⟩
        · rw [if_neg hzero, ← tally_switch hswitch] at hrest
          obtain ⟨fuel, ret, config, hrun⟩ := (hnext hswitch hzero).mpr hrest
          refine ⟨fuel + 1, ret, config, ?_⟩
          rw [parseLoop_next hin' hallows.header (fun h => hzero h.2) hswitch]
          exact hrun
  | case2 index hout =>
      rw [visited, if_neg hout]
      exact iff_of_true ⟨1, 1, _, parseLoop_done (by rwa [htotal]) 0⟩ trivial

end Loop

/-- A call returns without a copy that is too long exactly if the buffer is accepted. -/
theorem returns_iff (buffer : List Byte) :
    (∃ fuel ret config, usb_parse_config fuel buffer = some (.returned ret config)) ↔
      Accepts buffer := by
  by_cases hheader : 2 ≤ buffer.length
  · by_cases hconfig : bDescriptorType buffer = USB_DT_CONFIG
    · by_cases hcopied : Copied USB_DT_CONFIG_SIZE buffer
      · have hcall (fuel : Nat) : usb_parse_config fuel buffer =
            parseLoop buffer fuel (bLength (buffer.take (bLength buffer)))
              ⟨⟨buffer.take (bLength buffer), []⟩, none⟩ := by
          rw [usb_parse_config, if_neg (Nat.not_lt.mpr hheader), if_neg (not_not.mpr hconfig),
            memcpy_eq_some.2 ⟨hcopied, rfl⟩]
        simp only [hcall]
        rw [parseLoop_returns_iff _ rfl, bLength_take]
        exact ⟨fun h => ⟨hheader, fun _ => ⟨hcopied, h⟩⟩, fun h => (h.config hconfig).2⟩
      · have hcall (fuel : Nat) : usb_parse_config fuel buffer = some .outside := by
          rw [usb_parse_config, if_neg (Nat.not_lt.mpr hheader), if_neg (not_not.mpr hconfig),
            memcpy_eq_none hcopied]
        simp only [hcall]
        exact iff_of_false (by simp) fun h => hcopied (h.config hconfig).1
    · refine iff_of_true ⟨0, -1, noConfig, ?_⟩ ⟨hheader, fun h => absurd h hconfig⟩
      rw [usb_parse_config, if_neg (Nat.not_lt.mpr hheader), if_pos hconfig]
  · have hcall (fuel : Nat) : usb_parse_config fuel buffer = some .outside := by
      rw [usb_parse_config, if_pos (Nat.not_le.mp hheader)]
    simp only [hcall]
    exact iff_of_false (by simp) fun h => hheader h.header

end UBoot.Usb
