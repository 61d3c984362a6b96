import KernelAarch64.Core.Console
import KernelAarch64.Fs.Defines

/-!
# The SD driver (`driver/sd.c`, `driver/buf.c`) under the block device (`fs/block_device.c`)

A caller of `sdrw` starts the card when no request is queued, puts its buffer into the queue and
sleeps. When the card raises its interrupt, `sd_intr` finishes the request that was started, serves
the others in the queue one by one and wakes their callers.

The controller is the hardware side: it runs single-block commands on a card without errors and
raises the bits of its interrupt register in the order of the transfer. A bit that is `pending` is
raised by the time somebody polls for it, or the interrupt line is asserted.
-/

namespace KernelAarch64.Driver

open KernelAarch64.Lib KernelAarch64.Fs

/-- The `asserts` macro of `console.h`. -/
def asserts (p : Prop) [Decidable p] (text msg : String) : Except Stop Unit :=
  if p then .ok () else .error (.panic ("assertion failed: \"" ++ text ++ "\". " ++ msg))

/-- `B_VALID` -/
abbrev bValid : Nat := 0x2

/-- `B_DIRTY` -/
abbrev bDirty : Nat := 0x4

/-- `buf`, less its list node. Its `data` is word-aligned by the layout of the struct, which is what
`sd_start` and `sd_doit` assert of it. -/
structure Buf where
  flags : Nat
  blockno : UInt32
  data : BlockData

/-- `INT_CMD_DONE` -/
abbrev intCmdDone : BitVec 32 := 0x00000001#32

/-- `INT_DATA_DONE` -/
abbrev intDataDone : BitVec 32 := 0x00000002#32

/-- `INT_WRITE_RDY` -/
abbrev intWriteRdy : BitVec 32 := 0x00000010#32

/-- `INT_READ_RDY` -/
abbrev intReadRdy : BitVec 32 := 0x00000020#32

/-- `INT_CMD_TIMEOUT` -/
abbrev intCmdTimeout : BitVec 32 := 0x00010000#32

/-- `INT_DATA_TIMEOUT` -/
abbrev intDataTimeout : BitVec 32 := 0x00100000#32

/-- `INT_ERROR_MASK` -/
abbrev intErrorMask : BitVec 32 := 0x017e8000#32

/-- The card types `sdInit` tells apart. -/
inductive SdType where
  | mmc | type1 | type2SC | type2HC
  deriving Repr, DecidableEq

/-! ## The controller and its card -/

/-- The data phase of the command the controller is running: no phase, or a single block on its way
through `EMMC_DATA`, of which `done` of the 128 words have passed. -/
inductive Transfer where
  | idle
  /-- `done` words of the block have been taken from `EMMC_DATA`. -/
  | read (block done : Nat)
  /-- `done` words, those in `data`, have been put into `EMMC_DATA`. -/
  | write (block done : Nat) (data : BlockData)

/-- The controller and the card in it. `interrupt` is what a read of `EMMC_INTERRUPT` shows;
`pending` are the bits that the card will raise next, by the time somebody polls for them or the
interrupt line is asserted. -/
structure Emmc where
  type : SdType
  card : Nat → BlockData
  interrupt : BitVec 32
  pending : BitVec 32
  transfer : Transfer

/-- Word `k` of a block. -/
def u32 (d : BlockData) (k : Nat) : UInt32 := leU32 d.byte (4 * k)

/-- The block with word `k` replaced. -/
def setU32 (d : BlockData) (k : Nat) (w : UInt32) : BlockData :=
  fun i => if i.val / 4 = k then leByte w.toNat (i.val % 4) else d i

namespace Emmc

/-- The card raises the bits that are due. -/
def raise (e : Emmc) : Emmc :=
  { e with interrupt := e.interrupt ||| e.pending, pending := 0 }

/-- Writing `EMMC_INTERRUPT` clears the bits written. -/
def clear (e : Emmc) (mask : BitVec 32) : Emmc :=
  { e with interrupt := e.interrupt &&& ~~~mask }

/-- Writing `EMMC_CMDTM` with a single-block command and its argument in `EMMC_ARG1`: a high
capacity card takes a block number, the others a byte address. -/
def command (e : Emmc) (write : Bool) (arg : Nat) : Emmc :=
  let block := if e.type = .type2HC then arg else arg / 512
  { e with
    interrupt := e.interrupt ||| intCmdDone
    pending := if write then intWriteRdy else intReadRdy
    transfer := if write then .write block 0 BlockData.zero else .read block 0 }

/-- Reading `EMMC_DATA`: the next word of the block, least significant byte first. The last word
ends the command, and `INT_DATA_DONE` is due. -/
def popData (e : Emmc) : UInt32 × Emmc :=
  match e.transfer with
  | .read block done =>
    (u32 (e.card block) done,
      if done + 1 = 128 then { e with transfer := .idle, pending := e.pending ||| intDataDone }
      else { e with transfer := .read block (done + 1) })
  | _ => (0, e)

/-- Writing `EMMC_DATA`: the next word of the block. The card takes the block as a whole with the
last word, and `INT_DATA_DONE` is due. -/
def pushData (e : Emmc) (w : UInt32) : Emmc :=
  match e.transfer with
  | .write block done data =>
    let data := setU32 data done w
    if done + 1 = 128 then
      { e with
        card := Function.update e.card block data
        transfer := .idle
        pending := e.pending ||| intDataDone }
    else { e with transfer := .write block (done + 1) data }
  | _ => e

/-- `sdWaitForInterrupt(mask)`: `SD_OK` (0), `SD_ERROR` (1) or `SD_TIMEOUT` (2). On success only the
bits of `mask` are cleared, so a bit that was raised meanwhile is still there for the next wait. -/
def sdWaitForInterrupt (e : Emmc) (mask : BitVec 32) : Emmc × Nat :=
  let waitMask := mask ||| intErrorMask
  -- the loop polls until a bit of `waitMask` is raised
  let e := if e.interrupt &&& waitMask = 0 then e.raise else e
  let ival := e.interrupt
  if ival &&& waitMask = 0 ∨ ival &&& intCmdTimeout ≠ 0 ∨ ival &&& intDataTimeout ≠ 0 then
    (e.clear ival, 2)
  else if ival &&& intErrorMask ≠ 0 then (e.clear ival, 1)
  else (e.clear mask, 0)

/-- `sdSendCommandA` for `IX_READ_SINGLE` and `IX_WRITE_SINGLE`: what `sdSendCommandP` does, with
the response of a card that reports no error. -/
def sdSendCommandA (e : Emmc) (write : Bool) (arg : Nat) : Emmc × Nat :=
  -- `sdWaitForCommand`: `SD_BUSY`
  if e.interrupt &&& intErrorMask ≠ 0 then (e, 3)
  else ((e.clear e.interrupt).command write arg).sdWaitForInterrupt intCmdDone

/-- `intbuf[done++] = *EMMC_DATA` for the `rem` words to go, as the loop of `sd_doit` does for a
read. The words land in `b->data` one after another. -/
def readWords : (rem done : Nat) → Emmc → BlockData → Emmc × BlockData
  | 0, _, e, data => (e, data)
  | rem + 1, done, e, data =>
    let (w, e) := e.popData
    readWords rem (done + 1) e (setU32 data done w)

/-- `*EMMC_DATA = intbuf[done++]` for the `rem` words to go, each of which goes to the data register
of the controller. -/
def writeWords (data : BlockData) : (rem done : Nat) → Emmc → Emmc
  | 0, _, e => e
  | rem + 1, done, e => writeWords data rem (done + 1) (e.pushData (u32 data done))

end Emmc

/-! ## The driver -/

/-- `sd_doit(b)`: waits until the card is ready for the data of the command, then moves the 128
words of the block, to the card when `B_DIRTY` is set and from it otherwise. `INT_DATA_DONE` is left
to `sd_waitdone`. -/
def sdDoit (e : Emmc) (b : Buf) : Except Stop (Emmc × Buf) :=
  if b.flags &&& bDirty ≠ 0 then do
    let (e, resp) := e.sdWaitForInterrupt intWriteRdy
    if resp ≠ 0 then .error (.panic "* EMMC ERROR: Timeout waiting for ready to write\n")
    else
      asserts (e.interrupt = 0) "!*EMMC_INTERRUPT" "%d "
      return (Emmc.writeWords b.data 128 0 e, b)
  else do
    let (e, resp) := e.sdWaitForInterrupt intReadRdy
    if resp ≠ 0 then .error (.panic "* EMMC ERROR: Timeout waiting for ready to read\n")
    else
      asserts (e.interrupt = 0) "!*EMMC_INTERRUPT" "%d "
      let (e, data) := Emmc.readWords 128 0 e b.data
      return (e, { b with data := data })

/-- `sd_start(b, Transfer)`: sends the command for `b`, with a block number or a byte address by the
type of the card, and moves the data as well when `Transfer` is set. -/
def sdStart (e : Emmc) (b : Buf) (transfer : Bool) : Except Stop (Emmc × Buf) := do
  -- `(int)b->blockno << 9` is a 32-bit shift
  let bno := if e.type = .type2HC then b.blockno.toNat else b.blockno.toNat * 512 % 2 ^ 32
  asserts (b.flags &&& bValid = 0) "!(b->flags & B_VALID)" "valid buf should not be here."
  asserts (e.interrupt = 0) "!*EMMC_INTERRUPT" "emmc interrupt flag should be empty: 0x%x. "
  let (e, resp) := e.sdSendCommandA (b.flags &&& bDirty ≠ 0) bno
  if resp ≠ 0 then .error (.panic "* EMMC send command error.")
  else if transfer then sdDoit e b
  else return (e, b)

/-- `sd_waitdone(b)`, less the `wakeup`: the transfer has ended, and `b->flags` is `B_VALID` from
now on, which clears `B_DIRTY`. -/
def sdWaitdone (e : Emmc) (b : Buf) : Except Stop (Emmc × Buf) :=
  let (e, resp) := e.sdWaitForInterrupt intDataDone
  if resp ≠ 0 then .error (.panic "* EMMC ERROR: Timeout waiting for ready to read\n")
  else .ok (e, { b with flags := bValid })

/-- The part of `sdrw` that starts the card when `try_fetch_task` finds no request: a read is only
sent, a write is transferred too. -/
def startIfIdle {β : Type} (e : Emmc) (queue : List β) (b : Buf) : Except Stop (Emmc × Buf) :=
  match queue with
  | [] => if b.flags = 0 then sdStart e b false else sdStart e b true
  | _ => .ok (e, b)

/-- The part of `sd_intr` that transfers the request under way: a write was transferred before. -/
def transferRead (e : Emmc) (b : Buf) : Except Stop (Emmc × Buf) :=
  if b.flags = 0 then sdDoit e b else .ok (e, b)

/-! ## The block device -/

/-- A call through `block_device`. The local buffer of `sd_read` is not initialised: it holds
`junk`. -/
inductive Request where
  | read (blockNo : Nat) (junk : BlockData)
  | write (blockNo : Nat) (buffer : BlockData)

namespace Request

/-- The block number of a call. -/
def blockNo : Request → Nat
  | .read n _ => n
  | .write n _ => n

/-- The buffer that `sd_read` and `sd_write` pass to `sdrw`. The content of the one for a read is
whatever was on the stack. -/
def buf : Request → Buf
  | .read n junk => { flags := 0, blockno := .ofNat n, data := junk }
  | .write n buffer => { flags := bDirty ||| bValid, blockno := .ofNat n, data := buffer }

/-- What a call delivers: `sd_read` copies the buffer out, `sd_write` nothing. It is read off the
buffer as `sdrw` leaves it. -/
def result (r : Request) (b : Buf) : Option BlockData :=
  match r with
  | .read _ _ => some b.data
  | .write _ _ => none

/-- What a call is to deliver when the card holds `card`. This is the meaning of the call and knows
nothing of the queue or of the controller. -/
def expected (r : Request) (card : Nat → BlockData) : Option BlockData :=
  match r with
  | .read n _ => some (card n)
  | .write _ _ => none

/-- What the card is to hold after a call: a read leaves every block alone, a write replaces one of
them by the bytes it was given. -/
def written (r : Request) (card : Nat → BlockData) : Nat → BlockData :=
  match r with
  | .read _ _ => card
  | .write n buffer => Function.update card n buffer

/-- The call is an `sd_read`. -/
def IsRead : Request → Prop
  | .read _ _ => True
  | .write _ _ => False

end Request

/-! ## Moving a block through the data register -/

/-- A word stored in a block is read back byte by byte. -/
theorem leByte_u32 (d : BlockData) (i : Fin blockSize) :
    leByte (u32 d (i.val / 4)).toNat (i.val % 4) = d i := by
  have hi : i.val % 4 < 4 := Nat.mod_lt _ (by decide)
  have hlt : leNat 4 (fun k => d.byte (4 * (i.val / 4) + k)) < 2 ^ 32 := leNat_lt 4 _
  have hword : (u32 d (i.val / 4)).toNat = leNat 4 fun k => d.byte (4 * (i.val / 4) + k) := by
    show (UInt32.ofNat _).toNat = _
    rw [UInt32.toNat_ofNat']
    exact Nat.mod_eq_of_lt hlt
  rw [hword, leByte_leNat _ hi, Nat.div_add_mod, BlockData.byte_of_lt d i.isLt]

/-- The block that agrees with `d` from word `k` on and with `d₀` before. -/
def splice (d₀ d : BlockData) (k : Nat) : BlockData := fun i => if k ≤ i.val / 4 then d i else d₀ i

theorem splice_zero (d₀ d : BlockData) : splice d₀ d 0 = d := by
  funext i
  exact if_pos (Nat.zero_le _)

theorem splice_setU32 (d₀ d : BlockData) (k : Nat) :
    splice (setU32 d₀ k (u32 d k)) d (k + 1) = splice d₀ d k := by
  funext i
  simp only [splice, setU32]
  by_cases hk : i.val / 4 = k
  · rw [if_neg (by omega), if_pos hk, if_pos (by omega), ← hk, leByte_u32]
  · rw [if_neg hk]
    congr 1
    grind

/-- The last word completes the block. -/
theorem setU32_last (d₀ d : BlockData) : setU32 d₀ 127 (u32 d 127) = splice d₀ d 127 := by
  rw [← splice_setU32]
  funext i
  have hi : i.val / 4 < 128 := by
    have := i.isLt
    unfold blockSize at this
    omega
  exact (if_neg (by omega)).symm

variable {type : SdType} {card : Nat → BlockData}

namespace Emmc

/-- The controller with no interrupt raised or due and no command running: what `sd_start` needs,
and what each completed request leaves behind. -/
def quiet (type : SdType) (card : Nat → BlockData) : Emmc where
  type := type
  card := card
  interrupt := 0
  pending := 0
  transfer := .idle

theorem quiet_interrupt : (quiet type card).interrupt = 0 := rfl

/-- The controller after the data of a command has been moved. -/
def moved (type : SdType) (card : Nat → BlockData) : Emmc :=
  { quiet type card with pending := intDataDone }

/-- Taking the words from `done` on leaves them in the buffer, and with the last of them the
transfer is over. The induction is on the words to go. -/
theorem readWords_spec (type : SdType) (card : Nat → BlockData) (block rem done : Nat)
    (data : BlockData) (h : done + rem = 127) :
    readWords (rem + 1) done { quiet type card with transfer := .read block done } data =
      (moved type card, splice data (card block) done) := by
  induction rem generalizing done data with
  | zero =>
    have hdone : done = 127 := h
    subst hdone
    simp [readWords, popData, moved, quiet, setU32_last]
  | succ rem ih =>
    have hne : ¬ done + 1 = 128 := by omega
    rw [readWords]
    simp only [popData, hne, if_false]
    rw [← splice_setU32]
    exact ih (done + 1) _ (by omega)

/-- Putting the words from `done` on completes the block on the card. -/
theorem writeWords_spec (type : SdType) (card : Nat → BlockData) (block : Nat) (data : BlockData)
    (rem done : Nat) (d₀ : BlockData) (h : done + rem = 127) :
    writeWords data (rem + 1) done { quiet type card with transfer := .write block done d₀ } =
      moved type (Function.update card block (splice d₀ data done)) := by
  induction rem generalizing done d₀ with
  | zero =>
    have hdone : done = 127 := h
    subst hdone
    simp [writeWords, pushData, moved, quiet, setU32_last]
  | succ rem ih =>
    have hne : ¬ done + 1 = 128 := by omega
    rw [writeWords]
    simp only [pushData, hne, if_false]
    rw [← splice_setU32]
    exact ih (done + 1) _ (by omega)

/-- A bit of the interrupt register that reports progress, not an error. -/
def Progress (mask : BitVec 32) : Prop :=
  mask &&& (mask ||| intErrorMask) ≠ 0 ∧ mask &&& intErrorMask = 0 ∧ mask &&& intCmdTimeout = 0 ∧
    mask &&& intDataTimeout = 0

instance (mask : BitVec 32) : Decidable (Progress mask) := by
  unfold Progress
  infer_instance

/-- Waiting for a bit that is raised clears it. -/
theorem sdWaitForInterrupt_raised {e : Emmc} {mask : BitVec 32} (hmask : Progress mask)
    (h : e.interrupt = mask) : e.sdWaitForInterrupt mask = ({ e with interrupt := 0 }, 0) := by
  obtain ⟨hwait, herror, hcmd, hdata⟩ := hmask
  have hclear : e.clear mask = { e with interrupt := 0 } := by
    rw [clear, h, BitVec.and_not_self]
  unfold sdWaitForInterrupt
  simp only [h, hwait, herror, hcmd, hdata, hclear, if_false, ne_eq, not_true_eq_false, or_self]

/-- Waiting for the bit that is due lets the card raise it: the bit is acknowledged then, and the
result is that of no error. -/
theorem sdWaitForInterrupt_pending {e : Emmc} {mask : BitVec 32} (hmask : Progress mask)
    (h : e.interrupt = 0) (hpending : e.pending = mask) :
    e.sdWaitForInterrupt mask = ({ e with interrupt := 0, pending := 0 }, 0) := by
  have hnot : e.interrupt &&& (mask ||| intErrorMask) = 0 := by
    rw [h]
    exact BitVec.zero_and
  have hraised : e.raise.interrupt = mask := by
    rw [raise, h, hpending]
    exact BitVec.zero_or
  have hpoll : e.sdWaitForInterrupt mask = e.raise.sdWaitForInterrupt mask := by
    unfold sdWaitForInterrupt
    simp only [hnot, hraised, hmask.1, if_true, if_false]
  rw [hpoll, sdWaitForInterrupt_raised hmask hraised]
  rfl

/-- A command to a controller at rest leaves its data phase to be waited for. -/
theorem sdSendCommandA_quiet (write : Bool) (arg : Nat) :
    (quiet type card).sdSendCommandA write arg =
      ({ (quiet type card).command write arg with interrupt := 0 }, 0) := by
  have hclear : (quiet type card).clear (quiet type card).interrupt = quiet type card := by
    simp [quiet, clear]
  have hnone : ¬ (quiet type card).interrupt &&& intErrorMask ≠ 0 := by
    show ¬ 0#32 &&& intErrorMask ≠ 0
    decide
  rw [sdSendCommandA, if_neg hnone, hclear]
  exact sdWaitForInterrupt_raised (by decide) BitVec.zero_or

end Emmc

/-! ## Serving one request -/

/-- The block of the card that `sd_start` addresses for a block number. -/
def cardBlock (type : SdType) (blockno : UInt32) : Nat :=
  if type = .type2HC then blockno.toNat else blockno.toNat * 512 % 2 ^ 32 / 512

/-- The controller after `sd_start` has sent the command for `b`. Of the buffer only its flags and
its block number matter, and of a write the data is moved as well. -/
def started (type : SdType) (card : Nat → BlockData) (b : Buf) : Emmc :=
  if b.flags &&& bDirty ≠ 0 then
    { Emmc.quiet type card with
      pending := intWriteRdy, transfer := .write (cardBlock type b.blockno) 0 BlockData.zero }
  else
    { Emmc.quiet type card with
      pending := intReadRdy, transfer := .read (cardBlock type b.blockno) 0 }

/-- What serving a request does to the card and to the buffer, from `sd_start` to `sd_waitdone`: a
dirty buffer is written, another one is filled, and either is valid afterwards. -/
def serve (type : SdType) (card : Nat → BlockData) (b : Buf) : (Nat → BlockData) × Buf :=
  if b.flags &&& bDirty ≠ 0 then
    (Function.update card (cardBlock type b.blockno) b.data, { b with flags := bValid })
  else (card, { b with data := card (cardBlock type b.blockno), flags := bValid })

/-- The buffer as the transfer leaves it, before it is marked valid. -/
def filled (type : SdType) (card : Nat → BlockData) (b : Buf) : Buf :=
  { (serve type card b).2 with flags := b.flags }

variable {b : Buf} {e : Emmc}

theorem asserts_of {p : Prop} [Decidable p] (h : p) (text msg : String) :
    asserts p text msg = .ok () :=
  if_pos h

/-- A request whose buffer is not marked valid is sent to the card. -/
theorem sdStart_quiet (hvalid : b.flags &&& bValid = 0) (transfer : Bool) :
    sdStart (Emmc.quiet type card) b transfer =
      if transfer then sdDoit (started type card b) b else .ok (started type card b, b) := by
  have hsent : (Emmc.quiet type card).sdSendCommandA (b.flags &&& bDirty ≠ 0)
      (if type = .type2HC then b.blockno.toNat else b.blockno.toNat * 512 % 2 ^ 32) =
      (started type card b, 0) := by
    rw [Emmc.sdSendCommandA_quiet]
    by_cases hwrite : b.flags &&& bDirty = 0
    · by_cases hhc : type = .type2HC
      · simp [started, Emmc.command, Emmc.quiet, cardBlock, hwrite, hhc]
      · simp [started, Emmc.command, Emmc.quiet, cardBlock, hwrite, hhc]
    · by_cases hhc : type = .type2HC
      · simp [started, Emmc.command, Emmc.quiet, cardBlock, hwrite, hhc]
      · simp [started, Emmc.command, Emmc.quiet, cardBlock, hwrite, hhc]
  have htype : (Emmc.quiet type card).type = type := rfl
  simp only [sdStart, htype, asserts_of hvalid, asserts_of Emmc.quiet_interrupt, ok_bind, hsent]
  rfl

/-- A command that was sent is ready for its transfer, whether or not its bit is raised already. -/
theorem sdWaitForInterrupt_started {mask : BitVec 32} {t : Transfer} (hmask : Emmc.Progress mask)
    (he : started type card b = { Emmc.quiet type card with pending := mask, transfer := t })
    (hready : e = started type card b ∨ e = (started type card b).raise) :
    e.sdWaitForInterrupt mask = ({ Emmc.quiet type card with transfer := t }, 0) := by
  rw [he] at hready
  rcases hready with rfl | rfl
  · exact Emmc.sdWaitForInterrupt_pending hmask rfl rfl
  · exact Emmc.sdWaitForInterrupt_raised hmask BitVec.zero_or

/-- The transfer of a command that was sent, whether or not its interrupt has come already: a read
fills the buffer from the card, and a write puts the buffer there. -/
theorem sdDoit_started (hready : e = started type card b ∨ e = (started type card b).raise) :
    sdDoit e b = .ok (Emmc.moved type (serve type card b).1, filled type card b) := by
  unfold sdDoit filled serve
  by_cases hwrite : b.flags &&& bDirty ≠ 0
  · have hwait := sdWaitForInterrupt_started (by decide) (if_pos hwrite) hready
    have hwords := Emmc.writeWords_spec type card (cardBlock type b.blockno) b.data 127 0
      BlockData.zero rfl
    rw [splice_zero] at hwords
    simp only [if_pos hwrite, hwait, ne_eq, not_true_eq_false, if_false,
      asserts_of Emmc.quiet_interrupt, ok_bind]
    exact congrArg (fun e => Except.ok (e, b)) hwords
  · have hwait := sdWaitForInterrupt_started (by decide) (if_neg hwrite) hready
    have hwords := Emmc.readWords_spec type card (cardBlock type b.blockno) 127 0 b.data rfl
    rw [splice_zero] at hwords
    simp only [if_neg hwrite, hwait, ne_eq, not_true_eq_false, if_false,
      asserts_of Emmc.quiet_interrupt, ok_bind]
    exact congrArg (fun r : Emmc × BlockData => Except.ok (r.1, { b with data := r.2 })) hwords

/-- The end of a transfer marks the buffer valid and leaves the controller at rest. -/
theorem sdWaitdone_moved (hmoved : e = Emmc.moved type card ∨ e = (Emmc.moved type card).raise) :
    sdWaitdone e b = .ok (Emmc.quiet type card, { b with flags := bValid }) := by
  have hwait : e.sdWaitForInterrupt intDataDone = (Emmc.quiet type card, 0) := by
    rcases hmoved with rfl | rfl
    · exact Emmc.sdWaitForInterrupt_pending (by decide) rfl rfl
    · exact Emmc.sdWaitForInterrupt_raised (by decide) BitVec.zero_or
  simp only [sdWaitdone, hwait, ne_eq, not_true_eq_false, if_false]

theorem filled_valid : { filled type card b with flags := bValid } = (serve type card b).2 := by
  unfold filled serve
  split <;> rfl

/-! ## Reads through the block device -/

theorem serve_read (type : SdType) (card : Nat → BlockData) (n : Nat) (junk : BlockData) :
    serve type card (Request.read n junk).buf =
      (card, { flags := bValid, blockno := .ofNat n, data := card (cardBlock type (.ofNat n)) }) := by
  have hflags : ¬ (Request.read n junk).buf.flags &&& bDirty ≠ 0 := by
    show ¬ 0 &&& bDirty ≠ 0
    decide
  exact if_neg hflags

/-- A byte-addressed card is asked for the block whose number has the low 23 bits. -/
theorem cardBlock_ofNat {n : Nat} (hn : n < 2 ^ 32) :
    cardBlock type (.ofNat n) = if type = .type2HC then n else n % 2 ^ 23 := by
  have htoNat : (UInt32.ofNat n).toNat = n := by
    rw [UInt32.toNat_ofNat']
    exact Nat.mod_eq_of_lt hn
  unfold cardBlock
  rw [htoNat]
  split
  · rfl
  · omega

end KernelAarch64.Driver
