/-
# What is recorded of a configuration

A configuration as a device describes it: interfaces with their settings, settings with their
endpoints, and descriptors of other kinds behind each of them. The parser counts another setting of
an interface, and takes the endpoints of it for more endpoints of the first one.
-/

import UBoot.Usb.ParseConfig

namespace UBoot.Usb

/-! ## Configurations -/

/-- A descriptor that is neither one of an interface nor of an endpoint. -/
structure Extra where
  bytes : List Byte
  length_eq : bLength bytes = bytes.length
  two_le : 2 ≤ bytes.length
  unknown : Unknown bytes

structure Endpoint where
  desc : List Byte
  extras : List Extra
  size : desc.length = USB_DT_ENDPOINT_SIZE
  length_eq : bLength desc = USB_DT_ENDPOINT_SIZE
  type_eq : bDescriptorType desc = USB_DT_ENDPOINT

structure Setting where
  desc : List Byte
  extras : List Extra
  endpoints : List Endpoint
  size : desc.length = USB_DT_INTERFACE_SIZE
  length_eq : bLength desc = USB_DT_INTERFACE_SIZE
  type_eq : bDescriptorType desc = USB_DT_INTERFACE
  count : bNumEndpoints desc = endpoints.length
  room : endpoints.length ≤ USB_MAXENDPOINTS

/-- All settings of an interface, which have its number. -/
structure Settings where
  first : Setting
  alternates : List Setting
  same : ∀ a ∈ alternates, bInterfaceNumber a.desc = bInterfaceNumber first.desc

def Endpoint.descriptors (e : Endpoint) : List (List Byte) := e.desc :: e.extras.map Extra.bytes

def Setting.descriptors (s : Setting) : List (List Byte) :=
  s.desc :: (s.extras.map Extra.bytes ++ s.endpoints.flatMap Endpoint.descriptors)

def Settings.descriptors (i : Settings) : List (List Byte) :=
  i.first.descriptors ++ i.alternates.flatMap Setting.descriptors

def Settings.number (i : Settings) : Byte := bInterfaceNumber i.first.desc

/-- The descriptors behind the one of the configuration. -/
def descriptors (extras : List Extra) (interfaces : List Settings) : List (List Byte) :=
  extras.map Extra.bytes ++ interfaces.flatMap Settings.descriptors

structure Configuration where
  desc : List Byte
  extras : List Extra
  interfaces : List Settings
  size : desc.length = USB_DT_CONFIG_SIZE
  length_eq : bLength desc = USB_DT_CONFIG_SIZE
  type_eq : bDescriptorType desc = USB_DT_CONFIG
  total : wTotalLength desc = USB_DT_CONFIG_SIZE + (descriptors extras interfaces).flatten.length
  count : bNumInterfaces desc = interfaces.length
  room : interfaces.length ≤ USB_MAXINTERFACES
  distinct : (interfaces.map Settings.number).Nodup

def Configuration.encode (c : Configuration) : List Byte :=
  c.desc ++ (descriptors c.extras c.interfaces).flatten

def Setting.ep_desc (s : Setting) : List (List Byte) := s.endpoints.map Endpoint.desc

def Interface.recorded (f : Interface) : List Byte × List (List Byte) := (f.desc, f.ep_desc)

/-- The first settings and their endpoints are recorded, and no other endpoints are considered. -/
structure Exact (c : Configuration) (config : Config) : Prop where
  recorded : config.if_desc.map Interface.recorded =
    c.interfaces.map fun i => (i.first.desc, i.first.ep_desc)
  considered : considered config = config.if_desc.flatMap Interface.ep_desc

/-- What is expected of the parser. -/
structure ParsesRight (buffer : List Byte) : Prop where
  returns : ∃ fuel ret config, usb_parse_config fuel buffer = some (.returned ret config)
  exact : ∀ c : Configuration, c.encode = buffer → ∀ fuel ret config,
    usb_parse_config fuel buffer = some (.returned ret config) → Exact c config

/-- Only the first settings have endpoints. -/
def Plain (c : Configuration) : Prop :=
  ∀ i ∈ c.interfaces, ∀ a ∈ i.alternates, a.endpoints = []

/-! ## One descriptor after the other -/

/-- A descriptor that ends where its length says. -/
structure Whole (p : List Byte) : Prop where
  length_eq : bLength p = p.length
  two_le : 2 ≤ p.length
  number : bDescriptorType p = USB_DT_INTERFACE → 3 ≤ p.length

theorem Whole.head {p : List Byte} (hp : Whole p) (tail : List Byte) :
    bLength (p ++ tail) = bLength p ∧ bDescriptorType (p ++ tail) = bDescriptorType p := by
  have htwo := hp.two_le
  exact ⟨congrArg BitVec.toNat (List.getD_append p tail 0 0 (by omega)),
    List.getD_append p tail 0 1 htwo⟩

theorem Whole.memcpy {p : List Byte} (hp : Whole p) (size : Nat) (tail : List Byte) :
    memcpy size (p ++ tail) (bLength (p ++ tail)) = memcpy size p (bLength p) := by
  rw [(hp.head tail).1, Usb.memcpy, Usb.memcpy, hp.length_eq, List.take_left, List.take_length,
    List.length_append]
  simp

/-- The switch does not look behind the descriptor. -/
theorem Whole.switch {p : List Byte} (hp : Whole p) (tail : List Byte) (s : State) :
    switch (p ++ tail) s = switch p s := by
  rw [Usb.switch, Usb.switch, (hp.head tail).2]
  split
  · next hkind =>
      have hthird : (p ++ tail)[2]? = p[2]? := List.getElem?_append_left (hp.number hkind)
      rw [interfaceCase, interfaceCase, hthird, hp.memcpy]
  · rw [endpointCase, endpointCase, hp.memcpy]

/-- What the switch does with descriptors that follow each other. -/
def Does (pieces : List (List Byte)) (s s' : State) : Prop :=
  pieces.foldlM (fun s p => switch p s) s = some s'

theorem does_nil {s s' : State} : Does [] s s' ↔ s' = s := by
  rw [Does, List.foldlM_nil]
  exact Option.some_inj.trans eq_comm

theorem does_cons {p : List Byte} {pieces : List (List Byte)} {s s' : State} :
    Does (p :: pieces) s s' ↔ ∃ m, switch p s = some m ∧ Does pieces m s' := by
  rw [Does, List.foldlM_cons, Option.bind_eq_bind, Option.bind_eq_some_iff]
  rfl

theorem does_append {first second : List (List Byte)} {s s' : State} :
    Does (first ++ second) s s' ↔ ∃ m, Does first s m ∧ Does second m s' := by
  rw [Does, List.foldlM_append, Option.bind_eq_bind, Option.bind_eq_some_iff]
  rfl

theorem Does.desc_eq {pieces : List (List Byte)} {s s' : State} (h : Does pieces s s') :
    s'.config.desc = s.config.desc := by
  induction pieces generalizing s with
  | nil => rw [does_nil.mp h]
  | cons p pieces ih =>
      obtain ⟨m, hp, hrest⟩ := does_cons.mp h
      rw [ih hrest, switch_desc hp]

/-- A run over a buffer that is made of whole descriptors takes one after the other. -/
theorem parseLoop_pieces {buffer : List Byte} {pieces : List (List Byte)}
    (hpieces : ∀ p ∈ pieces, Whole p) {fuel index : Nat} {s : State} {ret : Int} {config : Config}
    (hdrop : buffer.drop index = pieces.flatten) (htotal : wTotalLength s.config.desc = buffer.length)
    (hrun : parseLoop buffer fuel index s = some (.returned ret config)) :
    ∃ s', Does pieces s s' ∧ config = s'.config := by
  induction pieces generalizing fuel index s with
  | nil =>
      refine ⟨s, does_nil.mpr rfl, ?_⟩
      have hend : buffer.length ≤ index := List.drop_eq_nil_iff.mp hdrop
      cases fuel with
      | zero => cases hrun
      | succ fuel =>
          rw [parseLoop_done (by omega)] at hrun
          cases hrun
          rfl
  | cons p pieces ih =>
      have hp := hpieces p List.mem_cons_self
      have htwo := hp.two_le
      rw [List.flatten_cons] at hdrop
      have hlen := congrArg List.length hdrop
      rw [List.length_drop, List.length_append] at hlen
      have hin : index + 1 < wTotalLength s.config.desc := by omega
      cases fuel with
      | zero => cases hrun
      | succ fuel =>
          obtain ⟨-, ⟨-, hzero, -⟩ | ⟨-, s', hswitch, hrest⟩⟩ := parseLoop_cases hin hrun
          · rw [hdrop, (hp.head _).1, hp.length_eq] at hzero
            omega
          · rw [hdrop, hp.switch] at hswitch
            rw [hdrop, (hp.head _).1, hp.length_eq] at hrest
            have hdrop' : buffer.drop (index + p.length) = pieces.flatten := by
              rw [← List.drop_drop, hdrop, List.drop_left]
            obtain ⟨s'', hdoes, hconfig⟩ := ih (fun q hq => hpieces q (List.mem_cons_of_mem p hq))
              hdrop' (by rw [switch_desc hswitch, htotal]) hrest
            exact ⟨s'', does_cons.mpr ⟨s', hswitch, hdoes⟩, hconfig⟩

/-! ## Kinds of descriptors -/

theorem Extra.whole (x : Extra) : Whole x.bytes :=
  ⟨x.length_eq, x.two_le, fun h => absurd h x.unknown.1⟩

theorem Endpoint.whole (e : Endpoint) : Whole e.desc := by
  refine ⟨e.length_eq.trans e.size.symm, ?_, fun h => ?_⟩
  · rw [e.size]
    decide
  · rw [e.type_eq] at h
    exact absurd h (by decide)

theorem Setting.whole (a : Setting) : Whole a.desc := by
  refine ⟨a.length_eq.trans a.size.symm, ?_, fun _ => ?_⟩
  · rw [a.size]
    decide
  · rw [a.size]
    decide

theorem whole_extras (extras : List Extra) : ∀ p ∈ extras.map Extra.bytes, Whole p := by
  intro p hp
  obtain ⟨x, -, rfl⟩ := List.mem_map.mp hp
  exact x.whole

theorem Endpoint.whole_descriptors (e : Endpoint) : ∀ p ∈ e.descriptors, Whole p :=
  List.forall_mem_cons.mpr ⟨e.whole, whole_extras e.extras⟩

theorem Setting.whole_descriptors (a : Setting) : ∀ p ∈ a.descriptors, Whole p := by
  refine List.forall_mem_cons.mpr ⟨a.whole, List.forall_mem_append.mpr ⟨whole_extras _, ?_⟩⟩
  intro p hp
  obtain ⟨e, -, hmem⟩ := List.mem_flatMap.mp hp
  exact e.whole_descriptors p hmem

theorem Settings.whole_descriptors (i : Settings) : ∀ p ∈ i.descriptors, Whole p := by
  refine List.forall_mem_append.mpr ⟨i.first.whole_descriptors, fun p hp => ?_⟩
  obtain ⟨a, -, hmem⟩ := List.mem_flatMap.mp hp
  exact a.whole_descriptors p hmem

theorem whole_descriptors (extras : List Extra) (interfaces : List Settings) :
    ∀ p ∈ descriptors extras interfaces, Whole p := by
  refine List.forall_mem_append.mpr ⟨whole_extras extras, fun p hp => ?_⟩
  obtain ⟨i, -, hmem⟩ := List.mem_flatMap.mp hp
  exact i.whole_descriptors p hmem

/-! ## What they do -/

variable {s s' : State}

/-- The last interface so far, and what is in front of it. -/
structure Last (s : State) (fs : List Interface) (f : Interface) (number : Byte) : Prop where
  if_desc : s.config.if_desc = fs ++ [f]
  number : s.curr_if_num = some number

theorem does_extras {extras : List Extra} (h : Does (extras.map Extra.bytes) s s') : s' = s := by
  induction extras generalizing s with
  | nil => exact does_nil.mp h
  | cons x extras ih =>
      obtain ⟨m, hx, hrest⟩ := does_cons.mp h
      rw [switch_unknown x.unknown] at hx
      cases hx
      exact ih hrest

section Settings

variable {fs : List Interface} {f : Interface} {number : Byte}

theorem does_endpoint {e : Endpoint} (h : Does e.descriptors s s') (hlast : Last s fs f number) :
    Last s' fs { f with ep_desc := f.ep_desc ++ [e.desc] } number := by
  obtain ⟨m, he, hrest⟩ := does_cons.mp h
  obtain rfl := does_extras hrest
  rw [switch_endpoint e.type_eq] at he
  obtain ⟨_, -, -, -, rfl⟩ := endpointCase_eq_some.mp he
  refine ⟨?_, hlast.number⟩
  dsimp only
  rw [hlast.if_desc, List.modifyLast_concat, e.whole.length_eq, List.take_length]

theorem does_endpoints {endpoints : List Endpoint}
    (h : Does (endpoints.flatMap Endpoint.descriptors) s s') (hlast : Last s fs f number) :
    Last s' fs { f with ep_desc := f.ep_desc ++ endpoints.map Endpoint.desc } number := by
  induction endpoints generalizing s f with
  | nil =>
      rw [List.flatMap_nil, does_nil] at h
      subst h
      rw [List.map_nil, List.append_nil]
      exact hlast
  | cons e endpoints ih =>
      rw [List.flatMap_cons] at h
      obtain ⟨m, he, hrest⟩ := does_append.mp h
      have hlast' := ih hrest (does_endpoint he hlast)
      rwa [List.append_assoc] at hlast'

/-- What is behind the descriptor of a setting. -/
theorem does_behind {a : Setting}
    (h : Does (a.extras.map Extra.bytes ++ a.endpoints.flatMap Endpoint.descriptors) s s')
    (hlast : Last s fs f number) :
    Last s' fs { f with ep_desc := f.ep_desc ++ a.ep_desc } number := by
  obtain ⟨m, hextras, hendpoints⟩ := does_append.mp h
  obtain rfl := does_extras hextras
  exact does_endpoints hendpoints hlast

/-- The first setting opens an interface. -/
theorem does_first {a : Setting} (h : Does a.descriptors s s')
    (hnew : s.curr_if_num ≠ some (bInterfaceNumber a.desc)) :
    Last s' s.config.if_desc ⟨a.desc, 1, a.ep_desc⟩ (bInterfaceNumber a.desc) := by
  obtain ⟨m, ha, hrest⟩ := does_cons.mp h
  rw [switch_interface a.type_eq] at ha
  obtain ⟨-, ⟨-, -, -, rfl⟩ | ⟨hsame, -⟩⟩ := interfaceCase_eq_some.mp ha
  · rw [a.whole.length_eq, List.take_length] at hrest
    exact does_behind hrest ⟨rfl, rfl⟩
  · exact absurd hsame hnew

/-- Another setting is counted, and its endpoints are recorded with those of the first one. -/
theorem does_alternate {a : Setting} (h : Does a.descriptors s s') (hlast : Last s fs f number)
    (hsame : bInterfaceNumber a.desc = number) :
    Last s' fs ⟨f.desc, (f.num_altsetting + 1) % 2 ^ 8, f.ep_desc ++ a.ep_desc⟩ number := by
  obtain ⟨m, ha, hrest⟩ := does_cons.mp h
  rw [switch_interface a.type_eq] at ha
  obtain ⟨-, ⟨hnew, -⟩ | ⟨-, rfl⟩⟩ := interfaceCase_eq_some.mp ha
  · rw [hlast.number, hsame] at hnew
    exact absurd rfl hnew
  · refine does_behind (f := ⟨f.desc, (f.num_altsetting + 1) % 2 ^ 8, f.ep_desc⟩) hrest
      ⟨?_, hlast.number⟩
    dsimp only
    rw [hlast.if_desc, List.modifyLast_concat]

theorem does_alternates {alternates : List Setting}
    (h : Does (alternates.flatMap Setting.descriptors) s s') (hlast : Last s fs f number)
    (hsame : ∀ a ∈ alternates, bInterfaceNumber a.desc = number) :
    ∃ n, Last s' fs ⟨f.desc, n, f.ep_desc ++ alternates.flatMap Setting.ep_desc⟩ number := by
  induction alternates generalizing s f with
  | nil =>
      rw [List.flatMap_nil, does_nil] at h
      subst h
      rw [List.flatMap_nil, List.append_nil]
      exact ⟨f.num_altsetting, hlast⟩
  | cons a alternates ih =>
      rw [List.flatMap_cons] at h
      obtain ⟨m, ha, hrest⟩ := does_append.mp h
      obtain ⟨n, hlast'⟩ := ih hrest (does_alternate ha hlast (hsame a List.mem_cons_self))
        fun b hb => hsame b (List.mem_cons_of_mem a hb)
      rw [List.append_assoc, ← List.flatMap_cons] at hlast'
      exact ⟨n, hlast'⟩

/-- An interface is recorded with the endpoints of all of its settings. -/
theorem does_interface {i : Settings} (h : Does i.descriptors s s')
    (hnew : s.curr_if_num ≠ some i.number) :
    ∃ n, Last s' s.config.if_desc
      ⟨i.first.desc, n, i.first.ep_desc ++ i.alternates.flatMap Setting.ep_desc⟩ i.number := by
  obtain ⟨m, hfirst, hrest⟩ := does_append.mp h
  exact does_alternates hrest (does_first hfirst hnew) i.same

end Settings

theorem does_interfaces {interfaces : List Settings}
    (h : Does (interfaces.flatMap Settings.descriptors) s s')
    (hdistinct : (interfaces.map Settings.number).Nodup)
    (hnew : ∀ i ∈ interfaces, s.curr_if_num ≠ some i.number) :
    s'.config.if_desc.map Interface.recorded = s.config.if_desc.map Interface.recorded ++
      interfaces.map fun i =>
        (i.first.desc, i.first.ep_desc ++ i.alternates.flatMap Setting.ep_desc) := by
  induction interfaces generalizing s with
  | nil =>
      rw [List.flatMap_nil, does_nil] at h
      subst h
      rw [List.map_nil, List.append_nil]
  | cons i interfaces ih =>
      rw [List.flatMap_cons] at h
      obtain ⟨m, hi, hrest⟩ := does_append.mp h
      obtain ⟨n, hlast⟩ := does_interface hi (hnew i List.mem_cons_self)
      rw [List.map_cons, List.nodup_cons] at hdistinct
      have hnew' : ∀ j ∈ interfaces, m.curr_if_num ≠ some j.number := by
        intro j hj hsame
        rw [hlast.number] at hsame
        exact hdistinct.1 (List.mem_map.mpr ⟨j, hj, (Option.some.inj hsame).symm⟩)
      rw [ih hrest hdistinct.2 hnew', hlast.if_desc, List.map_append, List.append_assoc]
      rfl

/-! ## Configurations in the buffer -/

/-- All of what the parser records of a configuration. -/
theorem records {c : Configuration} {fuel : Nat} {ret : Int} {config : Config}
    (hrun : usb_parse_config fuel c.encode = some (.returned ret config)) :
    config.desc = c.desc ∧ config.if_desc.map Interface.recorded =
      c.interfaces.map fun i =>
        (i.first.desc, i.first.ep_desc ++ i.alternates.flatMap Setting.ep_desc) := by
  have hwhole : Whole c.desc := by
    refine ⟨c.length_eq.trans c.size.symm, ?_, fun h => ?_⟩
    · rw [c.size]
      decide
    · rw [c.type_eq] at h
      exact absurd h (by decide)
  have hcopied : Copied USB_DT_CONFIG_SIZE c.desc :=
    ⟨c.length_eq.le, hwhole.length_eq.le⟩
  have hlen : ¬c.encode.length < 2 := by
    have htwo := hwhole.two_le
    rw [Configuration.encode, List.length_append]
    omega
  have htype : ¬bDescriptorType c.encode ≠ USB_DT_CONFIG :=
    not_not.mpr ((hwhole.head _).2.trans c.type_eq)
  have hmemcpy : memcpy USB_DT_CONFIG_SIZE c.encode (bLength c.encode) = some c.desc := by
    rw [Configuration.encode, hwhole.memcpy, memcpy_eq_some.mpr ⟨hcopied, rfl⟩, hwhole.length_eq,
      List.take_length]
  rw [usb_parse_config, if_neg hlen, if_neg htype, hmemcpy] at hrun
  dsimp only at hrun
  obtain ⟨s', hdoes, rfl⟩ := parseLoop_pieces (whole_descriptors c.extras c.interfaces)
    (by rw [hwhole.length_eq, Configuration.encode, List.drop_left])
    (by rw [Configuration.encode, List.length_append, c.total, c.size]) hrun
  obtain ⟨m, hextras, hinterfaces⟩ := does_append.mp hdoes
  obtain rfl := does_extras hextras
  refine ⟨hdoes.desc_eq, ?_⟩
  rw [does_interfaces hinterfaces c.distinct fun i _ h => by cases h]
  rfl

/-! ## The endpoints that are considered -/

theorem map_range_getD {α : Type*} (l : List α) (d : α) {n : Nat} (h : n ≤ l.length) :
    ((List.range n).map fun i => l.getD i d) = l.take n := by
  refine List.ext_getElem (by simp [h]) fun i hi hi' => ?_
  have hlt : i < l.length := by
    rw [List.length_take] at hi'
    omega
  rw [List.getElem_map, List.getElem_range, List.getElem_take, List.getD_eq_getElem _ _ hlt]

/-- With as many interfaces as the descriptor says, as many endpoints of each are considered as its
descriptor says. -/
theorem considered_eq {config : Config} (hcount : bNumInterfaces config.desc = config.if_desc.length)
    (hroom : ∀ f ∈ config.if_desc, bNumEndpoints f.desc ≤ f.ep_desc.length) :
    considered config = config.if_desc.flatMap fun f => f.ep_desc.take (bNumEndpoints f.desc) := by
  have hall : ((List.range config.if_desc.length).map fun i => config.if_desc.getD i ⟨[], 0, []⟩) =
      config.if_desc := by
    rw [map_range_getD _ _ le_rfl, List.take_length]
  rw [considered, hcount]
  conv_rhs => rw [← hall]
  rw [List.flatMap_map]
  refine List.flatMap_congr fun i hi => ?_
  have hlt : i < config.if_desc.length := List.mem_range.mp hi
  dsimp only
  rw [map_range_getD]
  rw [List.getD_eq_getElem _ _ hlt]
  exact hroom _ (List.getElem_mem hlt)

/-- What is recorded is right exactly if only first settings have endpoints. -/
theorem exact_iff {c : Configuration} {config : Config} (hdesc : config.desc = c.desc)
    (hrecorded : config.if_desc.map Interface.recorded = c.interfaces.map fun i =>
      (i.first.desc, i.first.ep_desc ++ i.alternates.flatMap Setting.ep_desc)) :
    Exact c config ↔ Plain c := by
  constructor
  · intro h i hi a ha
    have hall := List.map_inj_left.mp (hrecorded.symm.trans h.recorded) i hi
    have hnone := List.append_right_eq_self.mp (Prod.mk.inj hall).2
    exact List.map_eq_nil_iff.mp (List.flatMap_eq_nil_iff.mp hnone a ha)
  · intro hplain
    have hfirst : config.if_desc.map Interface.recorded =
        c.interfaces.map fun i => (i.first.desc, i.first.ep_desc) := by
      rw [hrecorded]
      refine List.map_congr_left fun i hi => ?_
      have hnone : i.alternates.flatMap Setting.ep_desc = [] :=
        List.flatMap_eq_nil_iff.mpr fun a ha => by rw [Setting.ep_desc, hplain i hi a ha, List.map_nil]
      rw [hnone, List.append_nil]
    have hcounts : ∀ f ∈ config.if_desc, bNumEndpoints f.desc = f.ep_desc.length := by
      intro f hf
      have hmem : f.recorded ∈ c.interfaces.map fun i => (i.first.desc, i.first.ep_desc) := by
        rw [← hfirst]
        exact List.mem_map_of_mem hf
      obtain ⟨i, -, hi⟩ := List.mem_map.mp hmem
      obtain ⟨hd, he⟩ := Prod.mk.inj hi
      rw [← hd, ← he, i.first.count, Setting.ep_desc, List.length_map]
    refine ⟨hfirst, ?_⟩
    have hlen := congrArg List.length hfirst
    rw [List.length_map, List.length_map] at hlen
    rw [considered_eq (by rw [hdesc, c.count, hlen]) fun f hf => (hcounts f hf).le]
    refine List.flatMap_congr fun f hf => ?_
    rw [hcounts f hf, List.take_length]

/-- A buffer is parsed as expected exactly if all of its descriptors are accepted, and if it is the
one of a configuration, only first settings have endpoints. -/
theorem parsesRight_iff (buffer : List Byte) :
    ParsesRight buffer ↔
      Accepts buffer ∧ ∀ c : Configuration, c.encode = buffer → Plain c := by
  constructor
  · intro h
    refine ⟨(returns_iff buffer).mp h.returns, ?_⟩
    rintro c rfl
    obtain ⟨fuel, ret, config, hrun⟩ := h.returns
    obtain ⟨hdesc, hrecorded⟩ := records hrun
    exact (exact_iff hdesc hrecorded).mp (h.exact c rfl fuel ret config hrun)
  · rintro ⟨haccepts, hplain⟩
    refine ⟨(returns_iff buffer).mpr haccepts, ?_⟩
    rintro c rfl fuel ret config hrun
    obtain ⟨hdesc, hrecorded⟩ := records hrun
    exact (exact_iff hdesc hrecorded).mpr (hplain c rfl)

def silentSetting : Setting where
  desc := [9, 4, 0, 0, 0, 1, 2, 0, 0]
  extras := []
  endpoints := []
  size := rfl
  length_eq := rfl
  type_eq := rfl
  count := rfl
  room := by decide

def streamingSetting : Setting where
  desc := [9, 4, 0, 1, 1, 1, 2, 0, 0]
  extras := []
  endpoints := [⟨[7, 5, 0x01, 1, 0xc0, 0, 1], [], rfl, rfl, rfl⟩]
  size := rfl
  length_eq := rfl
  type_eq := rfl
  count := rfl
  room := by decide

/-- Sound that is off in the first setting, as devices of that class have it. -/
def soundDevice : Configuration where
  desc := [9, 2, 34, 0, 1, 1, 0, 0x80, 50]
  extras := []
  interfaces := [⟨silentSetting, [streamingSetting], by decide⟩]
  size := rfl
  length_eq := rfl
  type_eq := rfl
  total := rfl
  count := rfl
  room := by decide
  distinct := by decide

example : Accepts soundDevice.encode ∧ ¬Plain soundDevice :=
  ⟨(returns_iff _).mp ⟨4, 1, _, rfl⟩, fun h =>
    absurd (h _ List.mem_cons_self _ List.mem_cons_self) (List.cons_ne_nil _ _)⟩

/-- A configuration of one interface whose endpoint comes in front of it. -/
def endpointFirst : Responder where
  usb_get_descriptor size :=
    some ([9, 2, 25, 0, 1, 1, 0, 0x80, 50, 7, 5, 0x81, 2, 64, 0, 0,
      9, 4, 0, 0, 0, 3, 1, 1, 0].take size)
  length_le _ _ h := by
    obtain rfl := Option.some.inj h
    exact List.length_take_le _ _

/-- An endpoint in front of the first interface is written in front of the interfaces. -/
theorem not_parsesRight : ¬∀ r : Responder, ∀ buffer ∈ usb_get_configuration_no r,
    ParsesRight buffer := by
  intro h
  have hright := h endpointFirst _ rfl
  obtain ⟨fuel, ret, config, hrun⟩ := hright.returns
  cases fuel with
  | zero => cases hrun
  | succ fuel => cases hrun

end UBoot.Usb
