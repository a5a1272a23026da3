/-
# The TFTP client

`TftpHandler`, `TftpSend`, `TftpTimeout` and `store_block` of `net/tftp.c`, without
multicast and without the progress display, and `NetStartAgain` of `net/net.c` for
one network device. `ulong` has 32 bits. A packet is the receive buffer from the
packet on, with the length the handler is told: what is behind the length is
whatever the buffer held before.
-/

import UBoot.LibGeneric.Strtoul
import UBoot.Net.Packet
import UBoot.Lib.Memory

namespace UBoot

open UBoot.Lib

def TFTP_RRQ : BitVec 16 := 1
def TFTP_DATA : BitVec 16 := 3
def TFTP_ACK : BitVec 16 := 4
def TFTP_ERROR : BitVec 16 := 5
def TFTP_OACK : BitVec 16 := 6

def TFTP_ERR_FILE_NOT_FOUND : BitVec 16 := 1
def TFTP_ERR_ACCESS_DENIED : BitVec 16 := 2

/-- `TFTP_BLOCK_SIZE` -/
def TFTP_BLOCK_SIZE : BitVec 16 := 512

/-- `TFTP_SEQUENCE_SIZE` -/
def TFTP_SEQUENCE_SIZE : BitVec 32 := 65536

/-- `TftpState`: `STATE_RRQ` and so on. -/
inductive TftpState
  | rrq
  | data
  | tooLarge
  | badMagic
  | oack
  deriving DecidableEq

/-- `NetState`: `NETLOOP_CONTINUE` and so on. -/
inductive NetState
  | continue
  | restart
  | success
  | fail
  deriving DecidableEq

/-- What `NetSetHandler` was given. -/
inductive NetHandler
  | TftpHandler
  | startAgainHandler
  deriving DecidableEq

/-- What does not change during a transfer. `retrycnt` is what `NetStartAgain` makes
of the variable `netretry`, nothing if it retries forever. -/
structure TftpConfig where
  load_addr : BitVec 32
  tftp_filename : CString
  TftpTimeoutMSecs : Nat
  TftpBlkSizeOption : BitVec 16
  TftpRRQTimeoutCountMax : Nat
  TIMEOUT_COUNT : Nat
  retrycnt : Option Nat

/-- The state of the client and the network loop, with the memory and the payloads
sent so far. -/
structure Tftp where
  TftpServerPort : Nat
  TftpOurPort : Nat
  TftpTimeoutCount : Nat
  TftpTimeoutCountMax : Nat
  TftpBlock : BitVec 32
  TftpLastBlock : BitVec 32
  TftpBlockWrap : BitVec 32
  TftpBlockWrapOffset : BitVec 32
  TftpState : TftpState
  TftpBlkSize : BitVec 16
  NetBootFileXferSize : BitVec 32
  NetState : NetState
  NetHandler : NetHandler
  NetTryCount : Nat
  memory : Nat → Byte
  sent : List (List Byte)

variable (cfg : TftpConfig)

/-- `NetStartAgain` -/
def NetStartAgain (t : Tftp) : Tftp :=
  match cfg.retrycnt with
  | some retrycnt =>
      if retrycnt ≤ t.NetTryCount then { t with NetState := .fail }
      else { t with NetTryCount := t.NetTryCount + 1, NetHandler := .startAgainHandler }
  | none => { t with NetTryCount := t.NetTryCount + 1, NetHandler := .startAgainHandler }

namespace Tftp

/-- The strings of a request, each with its terminator. -/
def strings (ss : List (List Byte)) : List Byte := (ss.map (· ++ [0#8])).flatten

/-- The payload `TftpSend` puts together. -/
def packet (t : Tftp) : List Byte :=
  match t.TftpState with
  | .rrq => htons TFTP_RRQ ++ strings [cfg.tftp_filename.1, ascii "octet", ascii "timeout",
      ascii (toString (cfg.TftpTimeoutMSecs / 1000)), ascii "blksize",
      ascii (toString cfg.TftpBlkSizeOption.toNat)]
  | .oack | .data => htons TFTP_ACK ++ htons (t.TftpBlock.setWidth 16)
  | .tooLarge => htons TFTP_ERROR ++ htons 3 ++ strings [ascii "File too large"]
  | .badMagic => htons TFTP_ERROR ++ htons 2 ++ strings [ascii "File has bad magic"]

/-- `TftpSend` -/
def TftpSend (t : Tftp) : Tftp := { t with sent := t.packet cfg :: t.sent }

/-- `store_block` -/
def store_block (block : BitVec 32) (src : List Byte) (len : Nat) (t : Tftp) : Tftp :=
  let offset := block * t.TftpBlkSize.setWidth 32 + t.TftpBlockWrapOffset
  let newsize := offset + BitVec.ofNat 32 len
  { t with
    memory := store t.memory (cfg.load_addr + offset).toNat (src.take len)
    NetBootFileXferSize :=
      if t.NetBootFileXferSize < newsize then newsize else t.NetBootFileXferSize }

/-- The string at a position: the bytes before the terminator. -/
def cstring (pkt : List Byte) : List Byte := pkt.takeWhile (· ≠ 0#8)

/-- `Check for 'blksize' option.` The value of `TftpBlkSize` after `n` rounds of the
loop, each a byte further in the packet. -/
def blksizeOption : Nat → List Byte → BitVec 16 → BitVec 16
  | 0, _, size => size
  | n + 1, pkt, size =>
      blksizeOption n pkt.tail
        (if cstring pkt = ascii "blksize" then (simple_strtoul (pkt.drop 8) 10).1.setWidth 16
        else size)

/-- `case TFTP_OACK` -/
def handleOack (t : Tftp) (src : Nat) (pkt : List Byte) (len : Nat) : Tftp :=
  TftpSend cfg { t with
    TftpState := .oack
    TftpServerPort := src
    TftpBlkSize := blksizeOption (len - 8) pkt t.TftpBlkSize }

/-- `TftpBlock`, and the wrap around of the counter that a number of 0 means. -/
def takeNumber (t : Tftp) (number : BitVec 16) : Tftp :=
  let t := { t with TftpBlock := number.setWidth 32 }
  if number = 0 then
    { t with
      TftpBlockWrap := t.TftpBlockWrap + 1
      TftpBlockWrapOffset :=
        t.TftpBlockWrapOffset + t.TftpBlkSize.setWidth 32 * TFTP_SEQUENCE_SIZE }
  else t

/-- `first block received` -/
def startData (t : Tftp) (src : Nat) : Tftp :=
  { t with
    TftpState := .data
    TftpServerPort := src
    TftpLastBlock := 0
    TftpBlockWrap := 0
    TftpBlockWrapOffset := 0 }

/-- The end of `case TFTP_DATA`: a block that is not the same again is stored and
acknowledged, and a short one is the last. -/
def takeBlock (t : Tftp) (data : List Byte) (len : Nat) : Tftp :=
  if t.TftpBlock = t.TftpLastBlock then t
  else
    let t := { t with TftpLastBlock := t.TftpBlock, TftpTimeoutCountMax := cfg.TIMEOUT_COUNT }
    let t := TftpSend cfg (store_block cfg (t.TftpBlock - 1) data len t)
    if len < t.TftpBlkSize.toNat then { t with NetState := .success } else t

/-- `case TFTP_DATA` -/
def handleData (t : Tftp) (src : Nat) (pkt : List Byte) (len : Nat) : Tftp :=
  match pkt with
  | n₀ :: n₁ :: data =>
      if len < 2 then t
      else
        let t := t.takeNumber (ntohs n₀ n₁)
        if t.TftpState = .rrq ∨ t.TftpState = .oack then
          let t := t.startData src
          if t.TftpBlock ≠ 1 then NetStartAgain cfg t else t.takeBlock cfg data (len - 2)
        else t.takeBlock cfg data (len - 2)
  | _ => t

/-- `case TFTP_ERROR` -/
def handleError (t : Tftp) (pkt : List Byte) : Tftp :=
  match pkt with
  | n₀ :: n₁ :: _ =>
      if ntohs n₀ n₁ = TFTP_ERR_FILE_NOT_FOUND ∨ ntohs n₀ n₁ = TFTP_ERR_ACCESS_DENIED then
        { t with NetState := .fail }
      else NetStartAgain cfg t
  | _ => t

/-- `TftpHandler` -/
def TftpHandler (t : Tftp) (pkt : List Byte) (dest src len : Nat) : Tftp :=
  if dest ≠ t.TftpOurPort then t
  else if t.TftpState ≠ .rrq ∧ src ≠ t.TftpServerPort then t
  else if len < 2 then t
  else
    match pkt with
    | p₀ :: p₁ :: pkt =>
        let proto := ntohs p₀ p₁
        if proto = TFTP_OACK then t.handleOack cfg src pkt (len - 2)
        else if proto = TFTP_DATA then t.handleData cfg src pkt (len - 2)
        else if proto = TFTP_ERROR then t.handleError cfg pkt
        else t
    | _ => t

/-- `TftpTimeout` -/
def TftpTimeout (t : Tftp) : Tftp :=
  let t := { t with TftpTimeoutCount := t.TftpTimeoutCount + 1 }
  if t.TftpTimeoutCount > t.TftpTimeoutCountMax then NetStartAgain cfg t
  else TftpSend cfg t

/-- `TftpStart`, and what `NetLoop` sets before and after. The other variables keep
what the transfer before left in them. -/
def TftpStart (t : Tftp) (serverPort ourPort : Nat) : Tftp :=
  let t := TftpSend cfg { t with
    TftpTimeoutCountMax := cfg.TftpRRQTimeoutCountMax
    TftpServerPort := serverPort
    TftpTimeoutCount := 0
    TftpState := .rrq
    TftpOurPort := ourPort
    TftpBlock := 0
    TftpBlkSize := TFTP_BLOCK_SIZE
    NetState := .continue
    NetHandler := .TftpHandler
    sent := [] }
  { t with NetBootFileXferSize := 0 }

end Tftp

end UBoot
