import Mathlib.Data.Nat.Digits.Lemmas
import Orion.Desktop.Steps
import Orion.Http.HeaderScan
import Orion.Lib.Splice

/-!
# The lines of the terminal (`kernel/desktop.c`)

The terminal keeps 13 lines of 75 bytes.  `term_push` writes the next one, and when all are used it moves
them up first.  `terminal_exec` echoes a command and pushes what it prints.

* `termPush_shows` — after a push the last lines of the transcript are shown, each cut to its first 75 bytes;
* `echo_whole`, `number_whole` — a command and the numbers that are printed are never cut;
* `terminal_session` — so in every run of the desktop: the end of the transcript is shown, and every command
  is echoed whole.
-/

namespace Orion.Desktop

open Orion.Lib

def termLines : ℕ := 13

def termLen : ℕ := 76

/-! ## Texts -/

/-- `append`, where the buffer of `cap` bytes held the text `a`. -/
def append (a b : List UInt8) (cap : ℕ) : List UInt8 := a ++ b.take (cap - 1 - a.length)

/-- `u64dec`: the digits are taken from the last one on. -/
def u64dec (v : ℕ) : List UInt8 :=
  if v = 0 then [48] else (Nat.digits 10 v).reverse.map fun d => UInt8.ofNat (48 + d)

def hexDigits : List UInt8 := ascii "0123456789ABCDEF"

def hex64 (v : ℕ) : List UInt8 :=
  ascii "0x" ++ (List.range 16).map fun i => hexDigits.getD (v >>> (60 - 4 * i) &&& 15) 0

def iptext (ip : List UInt8) (cap : ℕ) : List UInt8 :=
  (List.range 4).foldl (fun out i =>
    let out := append out (u64dec (ip.getD i 0).toNat) cap
    if i < 3 then append out (ascii ".") cap else out) []

/-! ## The lines -/

/-- The buffers of the lines, and how many are used. -/
structure Terminal where
  lines : List (List UInt8)
  count : ℕ
  deriving Repr, DecidableEq

/-- `term_push`.  A null pointer is an empty text. -/
def termPush (t : Terminal) (s : List UInt8) : Terminal :=
  let row := if t.count < termLines then t.count else termLines - 1
  let lines := if t.count < termLines then t.lines else t.lines.drop 1 ++ t.lines.drop (termLines - 1)
  { lines := lines.set row (splice (lines.getD row []) 0 ((Http.cstr s).take (termLen - 1) ++ [0]))
    count := if t.count < termLines then t.count + 1 else t.count }

/-- What `draw_terminal` draws. -/
def Terminal.shown (t : Terminal) : List (List UInt8) := (t.lines.take t.count).map Http.cstr

/-- The terminal before its first line. -/
def Terminal.boot : Terminal := ⟨List.replicate termLines (List.replicate termLen 0), 0⟩

/-! ## The commands -/

/-- What the build says. -/
structure Build where
  version : List UInt8
  archName : List UInt8

def velaVersion : List UInt8 := ascii "0.3.2-dev"

def asterVersion : List UInt8 := ascii "0.3.2"

/-- The lines of `desktop_init`. -/
def welcome (b : Build) : List (List UInt8) :=
  [ascii "Welcome to UN_Orion Desktop " ++ b.version ++ ascii ".",
    ascii "UN_Vela " ++ velaVersion ++ ascii " uses Aster Engine " ++ asterVersion ++ ascii ".",
    ascii "Type 'help' for terminal commands."]

/-- The line of `info`. -/
def infoText (b : Build) : List UInt8 :=
  ascii "UN_Orion " ++ b.version ++ ascii " / " ++ b.archName ++ ascii " / UN_Vela " ++ velaVersion ++
    ascii " / Aster " ++ asterVersion

/-- What a command learns from the rest of the system. -/
structure Env where
  freePages : ℕ
  page : ℕ
  seconds : ℕ
  /-- The driver and the address, when the network is ready. -/
  network : Option (List UInt8 × List UInt8)
  gateway : Bool
  loaded : Bool
  velaStatus : List UInt8

/-- The text of `net`. -/
def networkText (env : Env) : List UInt8 :=
  match env.network with
  | some (driver, ip) =>
    append (append (append (append (ascii "network ") (ascii "connected / ") termLen) driver termLen)
      (ascii " / ") termLen) (iptext ip 32) termLen
  | none => append (ascii "network ") (ascii "offline") termLen

/-- What a command prints behind its echo. -/
def printed (b : Build) (env : Env) (cmd : List UInt8) : List (List UInt8) :=
  if cmd = ascii "help" then
    [ascii "help clear info mem alloc uptime desktop net ping vela nettest openwrt"]
  else if cmd = ascii "info" then [infoText b]
  else if cmd = ascii "desktop" then [ascii "Terminal, Files, Notes, Paint, UN_Vela and Network are native apps."]
  else if cmd = ascii "mem" then
    [append (append (ascii "free physical memory ") (u64dec (env.freePages / 256)) termLen) (ascii " MB") termLen]
  else if cmd = ascii "alloc" then [append (ascii "allocated ") (hex64 env.page) termLen]
  else if cmd = ascii "uptime" then
    [append (append (ascii "uptime ") (u64dec env.seconds) termLen) (ascii " seconds") termLen]
  else if cmd = ascii "net" then [networkText env]
  else if cmd = ascii "ping" then
    [if env.gateway then ascii "gateway reply received" else ascii "gateway no reply"]
  else if cmd = ascii "nettest" then
    [if env.loaded then ascii "HTTP test success / loaded by UN_Vela + Aster" else env.velaStatus]
  else if cmd = ascii "openwrt" then [ascii "network profile: OpenWrt LAN 192.168.1.2/24"]
  else if cmd = ascii "vela" ∨ cmd = ascii "browser" then []
  else if cmd ≠ [] then [ascii "unknown command"]
  else []

/-- The terminal after `desktop_init` -/
def Terminal.init (b : Build) : Terminal := (welcome b).foldl termPush .boot

/-- The echo of a command. -/
def echo (cmd : List UInt8) : List (List UInt8) :=
  if cmd ≠ [] then [append (ascii "orion > ") cmd termLen] else []

/-- `terminal_exec`, as far as it works on the lines -/
def Terminal.exec (b : Build) (t : Terminal) (env : Env) (cmd : List UInt8) : Terminal :=
  let t := (echo cmd).foldl termPush t
  if cmd = ascii "clear" then { t with count := 0 } else (printed b env cmd).foldl termPush t

/-! ## What is shown -/

/-- The part of a line that is kept. -/
def cut (s : List UInt8) : List UInt8 := (Http.cstr s).take (termLen - 1)

/-- The last `n` of a list. -/
def lastLines (n : ℕ) (log : List (List UInt8)) : List (List UInt8) := log.drop (log.length - n)

/-- The terminal shows the end of the transcript `log`. -/
structure Shows (t : Terminal) (log : List (List UInt8)) : Prop where
  rows : t.lines.length = termLines
  count : t.count = min log.length termLines
  shown : t.shown = (lastLines termLines log).map cut

theorem Shows.boot : Shows .boot [] := ⟨rfl, rfl, rfl⟩

theorem Shows.clear {t : Terminal} {log : List (List UInt8)} (h : Shows t log) : Shows { t with count := 0 } [] :=
  ⟨h.rows, rfl, rfl⟩

/-- The bytes behind the NUL of a line do not count. -/
theorem cstr_line (buf s : List UInt8) :
    Http.cstr (splice buf 0 ((Http.cstr s).take (termLen - 1) ++ [0])) = cut s := by
  have hzero : ∀ c ∈ (Http.cstr s).take (termLen - 1), decide (c ≠ 0) = true := by
    intro c hc
    exact List.mem_takeWhile_imp (p := (decide <| · ≠ 0)) (List.mem_of_mem_take hc)
  have hself : Http.cstr (cut s) = cut s := List.takeWhile_eq_self_iff.mpr hzero
  rw [splice, List.take_zero, List.nil_append, List.append_assoc, List.singleton_append, Http.Scan.cstr_nul]
  exact hself

/-- **A push** shows one more line, and drops the first when all were used. -/
theorem termPush_shows {t : Terminal} {log : List (List UInt8)} (h : Shows t log) (s : List UInt8) :
    Shows (termPush t s) (log ++ [s]) := by
  obtain ⟨hrows, hcount, hshown⟩ := h
  by_cases hfree : t.count < termLines
  · have hlen : log.length < termLines := by omega
    have hat : t.count = log.length := by omega
    have hnext : termPush t s =
        ⟨t.lines.set t.count (splice (t.lines.getD t.count []) 0 ((Http.cstr s).take (termLen - 1) ++ [0])),
          t.count + 1⟩ := by
      rw [termPush, if_pos hfree, if_pos hfree, if_pos hfree]
    rw [hnext]
    constructor
    · rw [List.length_set, hrows]
    · show t.count + 1 = min (log ++ [s]).length termLines
      rw [List.length_append, List.length_singleton]
      omega
    · rw [Terminal.shown] at hshown ⊢
      have hin : t.count < t.lines.length := by omega
      rw [List.take_succ_eq_append_getElem (by rw [List.length_set]; exact hin), List.getElem_set_self,
        List.take_set_of_le (Nat.le_refl _), List.map_append, hshown, List.map_singleton, cstr_line]
      have hall : lastLines termLines log = log := by
        rw [lastLines, Nat.sub_eq_zero_of_le (by omega), List.drop_zero]
      have hall' : lastLines termLines (log ++ [s]) = log ++ [s] := by
        rw [lastLines, List.length_append, List.length_singleton, Nat.sub_eq_zero_of_le (by omega), List.drop_zero]
      rw [hall, hall', List.map_append, List.map_singleton]
  · have hlen : termLines ≤ log.length := by omega
    have hfull : t.count = termLines := by omega
    have hnext : termPush t s = ⟨(t.lines.drop 1 ++ t.lines.drop (termLines - 1)).set (termLines - 1)
        (splice ((t.lines.drop 1 ++ t.lines.drop (termLines - 1)).getD (termLines - 1) []) 0
          ((Http.cstr s).take (termLen - 1) ++ [0])), t.count⟩ := by
      rw [termPush, if_neg hfree, if_neg hfree, if_neg hfree]
    have hmoved : (t.lines.drop 1).length = termLines - 1 := by
      rw [List.length_drop, hrows]
    have hlast : (t.lines.drop (termLines - 1)).length = 1 := by
      rw [List.length_drop, hrows]
      rfl
    rw [hnext]
    constructor
    · rw [List.length_set, List.length_append, hmoved, hlast]
      rfl
    · show t.count = min (log ++ [s]).length termLines
      rw [List.length_append, List.length_singleton]
      omega
    · rw [Terminal.shown] at hshown ⊢
      obtain ⟨old, hold⟩ := List.length_eq_one_iff.mp hlast
      have hkept : (t.lines.drop 1).map Http.cstr = ((lastLines termLines log).drop 1).map cut := by
        rw [List.map_drop, List.map_drop, ← hshown, hfull, ← hrows, List.take_length]
      have hend : lastLines termLines (log ++ [s]) = (lastLines termLines log).drop 1 ++ [s] := by
        have hpos : 0 < termLines := by decide
        have hat : log.length + 1 - termLines = log.length - termLines + 1 := by omega
        have hin : log.length - termLines + 1 ≤ log.length := by omega
        rw [lastLines, lastLines, List.length_append, List.length_singleton, List.drop_drop, hat,
          List.drop_append_of_le_length hin]
      have hset : ∀ line, ((t.lines.drop 1 ++ t.lines.drop (termLines - 1)).set (termLines - 1) line).take t.count =
          t.lines.drop 1 ++ [line] := by
        intro line
        rw [hold, List.set_append_right _ _ (by rw [hmoved]), hmoved, Nat.sub_self, List.set_cons_zero,
          List.take_of_length_le]
        rw [List.length_append, hmoved, hfull]
        rfl
      rw [hset, List.map_append, List.map_singleton, cstr_line, hkept, hend, List.map_append, List.map_singleton]

theorem foldl_termPush_shows {t : Terminal} {log : List (List UInt8)} (h : Shows t log) (texts : List (List UInt8)) :
    Shows (texts.foldl termPush t) (log ++ texts) := by
  induction texts generalizing t log with
  | nil =>
    rw [List.append_nil]
    exact h
  | cons s texts ih =>
    have hrest := ih (termPush_shows h s)
    rw [List.append_assoc] at hrest
    exact hrest

/-! ## Runs -/

/-- What a command adds to the transcript; `clear` empties it. -/
def transcribe (b : Build) (log : List (List UInt8)) (c : Env × List UInt8) : List (List UInt8) :=
  if c.2 = ascii "clear" then [] else log ++ (echo c.2 ++ printed b c.1 c.2)

theorem exec_shows (b : Build) {t : Terminal} {log : List (List UInt8)} (h : Shows t log) (c : Env × List UInt8) :
    Shows (t.exec b c.1 c.2) (transcribe b log c) := by
  have hecho := foldl_termPush_shows h (echo c.2)
  rw [Terminal.exec, transcribe]
  by_cases hclear : c.2 = ascii "clear"
  · rw [if_pos hclear, if_pos hclear]
    exact hecho.clear
  · rw [if_neg hclear, if_neg hclear, ← List.append_assoc]
    exact foldl_termPush_shows hecho _

theorem run_shows (b : Build) {t : Terminal} {log : List (List UInt8)} (h : Shows t log)
    (cs : List (Env × List UInt8)) :
    Shows (cs.foldl (fun t c => t.exec b c.1 c.2) t) (cs.foldl (transcribe b) log) := by
  induction cs generalizing t log with
  | nil => exact h
  | cons c cs ih => exact ih (exec_shows b h c)

/-! ## What is never cut -/

theorem append_whole {a b : List UInt8} {cap : ℕ} (h : a.length + b.length < cap) : append a b cap = a ++ b := by
  rw [append, List.take_of_length_le (by omega)]

theorem cut_whole {s : List UInt8} (hlen : s.length < termLen) (hzero : 0 ∉ s) : cut s = s := by
  have hself : Http.cstr s = s := List.takeWhile_eq_self_iff.mpr fun c hc => by
    have hc : c ≠ 0 := fun h => hzero (h ▸ hc)
    exact decide_eq_true hc
  rw [cut, hself, List.take_of_length_le (by omega)]

/-- The command line holds 63 bytes at most. -/
theorem echo_whole {cmd : List UInt8} (hne : cmd ≠ []) (hlen : cmd.length < termCap) (hzero : 0 ∉ cmd) :
    (echo cmd).map cut = [ascii "orion > " ++ cmd] := by
  have hprompt : (ascii "orion > ").length = 8 := by decide
  have hall : (ascii "orion > " ++ cmd).length < termLen := by
    rw [List.length_append, hprompt]
    exact Nat.add_lt_add_left hlen 8 |>.trans_le (by decide)
  have hfree : 0 ∉ ascii "orion > " ++ cmd := by
    rw [List.mem_append]
    exact not_or.mpr ⟨by decide, hzero⟩
  rw [echo, if_pos hne, append_whole (by rwa [List.length_append] at hall), List.map_singleton, cut_whole hall hfree]

/-- The digits are those of the number. -/
theorem u64dec_value (v : ℕ) : Nat.ofDigits 10 ((u64dec v).map fun c => c.toNat - 48).reverse = v := by
  by_cases hv : v = 0
  · subst hv
    rfl
  · have hdigit : ∀ d ∈ Nat.digits 10 v, (UInt8.ofNat (48 + d)).toNat - 48 = d := by
      intro d hd
      have hlt := Nat.digits_lt_base (by decide) hd
      rw [UInt8.toNat_ofNat', Nat.mod_eq_of_lt (by omega)]
      omega
    rw [u64dec, if_neg hv, List.map_map, ← List.map_reverse, List.reverse_reverse]
    have hmap := List.map_congr_left hdigit
    rw [List.map_id'] at hmap
    exact (congrArg (Nat.ofDigits 10) hmap).trans (Nat.ofDigits_digits 10 v)

theorem u64dec_length {v : ℕ} (hv : v < 2 ^ 64) : (u64dec v).length ≤ 20 := by
  rw [u64dec]
  split
  · decide
  · rw [List.length_map, List.length_reverse, Nat.digits_length_le_iff (by decide)]
    exact hv.trans (by decide)

theorem u64dec_ne_zero (v : ℕ) : 0 ∉ u64dec v := by
  rw [u64dec]
  split
  · decide
  · intro hmem
    obtain ⟨d, hd, hzero⟩ := List.mem_map.mp hmem
    have hlt := Nat.digits_lt_base (b := 10) (by decide) (List.mem_reverse.mp hd)
    have hval := congrArg UInt8.toNat hzero
    rw [UInt8.toNat_ofNat', Nat.mod_eq_of_lt (by omega)] at hval
    exact absurd hval (by simp)

/-- The lines of `mem` and `uptime`. -/
theorem number_whole {a b : List UInt8} {v : ℕ} (hv : v < 2 ^ 64) (hlen : a.length + 20 + b.length < termLen)
    (ha : 0 ∉ a) (hb : 0 ∉ b) : cut (append (append a (u64dec v) termLen) b termLen) = a ++ u64dec v ++ b := by
  have hdigits := u64dec_length hv
  rw [append_whole (a := a) (by omega), append_whole (by rw [List.length_append]; omega), cut_whole]
  · rw [List.length_append, List.length_append]
    omega
  · rw [List.mem_append, List.mem_append]
    exact not_or.mpr ⟨not_or.mpr ⟨ha, u64dec_ne_zero v⟩, hb⟩

/-! ## The command line -/

def Call.command? : Call → Option (List UInt8)
  | .command cmd => some cmd
  | _ => none

/-- The commands that were handed to `terminal_exec`. -/
def State.commands (d : State) : List (List UInt8) := d.calls.filterMap Call.command?

/-- The command line and the commands so far are the same. -/
structure SameLine (d e : State) : Prop where
  line : e.termCmd = d.termCmd
  commands : e.commands = d.commands

theorem SameLine.refl (d : State) : SameLine d d := ⟨rfl, rfl⟩

theorem SameLine.trans {d e f : State} (h : SameLine d e) (h' : SameLine e f) : SameLine d f :=
  ⟨h'.line.trans h.line, h'.commands.trans h.commands⟩

section Frame

variable (scr : Platform) (d : State)

theorem call_sameLine {c : Call} (hc : c.command? = none) : SameLine d (d.call c) := by
  refine ⟨rfl, ?_⟩
  show (d.calls ++ [c]).filterMap Call.command? = d.calls.filterMap Call.command?
  rw [List.filterMap_append, List.filterMap_cons_none hc, List.filterMap_nil, List.append_nil]

theorem record_sameLine (dispatched : Bool) : SameLine d (d.record dispatched) := ⟨rfl, rfl⟩

theorem focusApp_sameLine (app : App) : SameLine d (d.focusApp app) := ⟨rfl, rfl⟩

theorem pressBrowser_sameLine (w : Window) : SameLine d (d.pressBrowser w) := by
  rw [State.pressBrowser]
  split
  · exact call_sameLine d rfl
  · split
    · exact call_sameLine d rfl
    · split
      · exact call_sameLine d rfl
      · split
        · exact call_sameLine d rfl
        · split
          · exact call_sameLine d rfl
          · exact .refl d

theorem pressContent_sameLine (app : App) (w : Window) : SameLine d (d.pressContent app w) := by
  cases app with
  | paint =>
    show SameLine d (if _ then _ else _)
    split <;> exact call_sameLine d rfl
  | browser => exact pressBrowser_sameLine d w
  | network =>
    show SameLine d (if _ then _ else _)
    split
    · exact call_sameLine d rfl
    · exact .refl d
  | terminal | files | notes | about => exact .refl d

theorem pressWindow_sameLine (app : App) : SameLine d (d.pressWindow app) := by
  rw [State.pressWindow]
  split
  · exact ⟨rfl, rfl⟩
  · split
    · exact ⟨rfl, rfl⟩
    · have hraised : SameLine d (d.raise app) := ⟨rfl, rfl⟩
      exact hraised.trans (pressContent_sameLine (d.raise app) app _)

theorem pressMenu_sameLine : SameLine d (pressMenu scr d) := by
  rw [pressMenu]
  split
  · exact focusApp_sameLine d _
  · split <;> exact ⟨rfl, rfl⟩

theorem pressTaskButton_sameLine (app : App) : SameLine d (pressTaskButton d app) := by
  rw [pressTaskButton]
  split
  · exact ⟨rfl, rfl⟩
  · exact focusApp_sameLine d app

theorem handlePress_sameLine : SameLine d (handlePress scr d) := by
  rw [handlePress]
  split
  · exact ⟨rfl, rfl⟩
  · split
    · exact pressMenu_sameLine scr d
    · split
      · exact pressTaskButton_sameLine d _
      · split
        · exact focusApp_sameLine d _
        · split
          · exact pressWindow_sameLine d _
          · exact ⟨rfl, rfl⟩

theorem dragWindow_sameLine : SameLine d (dragWindow scr d) := by
  rw [dragWindow]
  split
  · split <;> exact ⟨rfl, rfl⟩
  · exact .refl d

theorem endDrag_sameLine : SameLine d (endDrag d) := by
  rw [endDrag]
  split <;> exact ⟨rfl, rfl⟩

theorem handleMousePacket_sameLine (p : Packet) : SameLine d (handleMousePacket scr p d) := by
  have hmoved : SameLine d (moveCursor scr p d) := ⟨rfl, rfl⟩
  rw [handleMousePacket]
  split
  · exact (hmoved.trans (call_sameLine _ rfl)).trans (record_sameLine _ false)
  · have hdragged := (hmoved.trans (dragWindow_sameLine scr _)).trans (endDrag_sameLine _)
    show SameLine d (if _ then _ else _)
    split
    · exact (hdragged.trans (record_sameLine _ true)).trans (handlePress_sameLine scr _)
    · split
      · exact (hdragged.trans (call_sameLine _ rfl)).trans (record_sameLine _ false)
      · exact hdragged.trans (record_sameLine _ false)

theorem mouseByte_sameLine (b : UInt8) : SameLine d (mouseByte scr b d) := by
  rw [mouseByte]
  split
  · exact .refl d
  · have hread : ∀ mpkt, SameLine d { d with mpkt := mpkt } := fun _ => ⟨rfl, rfl⟩
    show SameLine d (if _ then _ else _)
    by_cases hlen : (d.mpkt ++ [b]).length ≥ if scr.packetSize = 4 then 4 else 3
    · rw [if_pos hlen]
      exact (hread []).trans (handleMousePacket_sameLine scr _ _)
    · rw [if_neg hlen]
      exact hread _

end Frame

/-- A text that the command line can hold. -/
def Typed (cmd : List UInt8) : Prop := cmd.length < termCap ∧ 0 ∉ cmd

structure LineOk (d : State) : Prop where
  line : Typed d.termCmd
  commands : ∀ cmd ∈ d.commands, Typed cmd

theorem LineOk.same {d e : State} (h : LineOk d) (hsame : SameLine d e) : LineOk e :=
  ⟨hsame.line ▸ h.line, hsame.commands ▸ h.commands⟩

theorem LineOk.empty {d e : State} (h : LineOk d) (hline : e.termCmd = []) (hcommands : e.commands = d.commands) :
    LineOk e := by
  refine ⟨?_, hcommands ▸ h.commands⟩
  rw [hline]
  exact ⟨by decide, List.not_mem_nil⟩

theorem LineOk.terminalExec {d : State} (h : LineOk d) : LineOk (terminalExec d) := by
  have hcommands : (d.call (.command d.termCmd)).commands = d.commands ++ [d.termCmd] := by
    show (d.calls ++ [Call.command d.termCmd]).filterMap Call.command? = _
    rw [List.filterMap_append]
    rfl
  have hcalled : LineOk (d.call (.command d.termCmd)) := by
    refine ⟨h.line, ?_⟩
    rw [hcommands]
    intro cmd hmem
    rcases List.mem_append.mp hmem with hmem | hmem
    · exact h.commands cmd hmem
    · exact List.mem_singleton.mp hmem ▸ h.line
  rw [Desktop.terminalExec]
  split <;> exact hcalled.empty rfl rfl

theorem LineOk.keyAscii {d : State} (h : LineOk d) {c : UInt8} (hc : c ≠ 0) : LineOk (keyAscii c d) := by
  rw [Desktop.keyAscii]
  split
  · split
    · next hroom =>
      refine ⟨⟨?_, ?_⟩, h.commands⟩
      · show (d.termCmd ++ [c]).length < termCap
        rw [List.length_append, List.length_singleton]
        omega
      · show 0 ∉ d.termCmd ++ [c]
        rw [List.mem_append, List.mem_singleton]
        exact not_or.mpr ⟨h.line.2, hc.symm⟩
    · exact h
  · split
    · exact h.same ⟨rfl, rfl⟩
    · exact h
  · exact h.same (call_sameLine d rfl)
  · exact h

theorem LineOk.keyEnter {d : State} (h : LineOk d) : LineOk (keyEnter d) := by
  rw [Desktop.keyEnter]
  split
  · exact h.terminalExec
  · split
    · exact h.same ⟨rfl, rfl⟩
    · exact h
  · exact h.same (call_sameLine d rfl)
  · exact h

theorem LineOk.keyBackspace {d : State} (h : LineOk d) : LineOk (keyBackspace d) := by
  rw [Desktop.keyBackspace]
  split
  · refine ⟨⟨?_, fun hmem => h.line.2 (List.mem_of_mem_dropLast hmem)⟩, h.commands⟩
    show d.termCmd.dropLast.length < termCap
    rw [List.length_dropLast]
    have hlen := h.line.1
    omega
  · exact h.same ⟨rfl, rfl⟩
  · exact h.same (call_sameLine d rfl)
  · exact h

/-- No key types a zero byte. -/
theorem keyChar_ne_zero {shift : Bool} {s c : UInt8} (h : keyChar (if shift then shiftMap else normalMap) s = some c) :
    c ≠ 0 := by
  have hrows : ∀ row ∈ (if shift then shiftMap else normalMap), 0 ∉ row.2 := by
    cases shift <;> decide
  obtain ⟨row, hrow, hc⟩ := List.exists_of_findSome?_eq_some h
  split at hc
  · exact fun hzero => hrows row hrow (hzero ▸ List.mem_of_getElem? hc)
  · cases hc

theorem LineOk.keyScancode {d : State} (h : LineOk d) (s : UInt8) : LineOk (keyScancode s d) := by
  rw [Desktop.keyScancode]
  split
  · exact h.same ⟨rfl, rfl⟩
  · split
    · exact h.same ⟨rfl, rfl⟩
    · split
      · exact h
      · split
        · exact h.same ⟨rfl, rfl⟩
        · split
          · exact h.keyEnter
          · split
            · exact h.keyBackspace
            · split
              · next hchar => exact h.keyAscii (keyChar_ne_zero hchar)
              · exact h

theorem LineOk.step {d : State} (h : LineOk d) (scr : Platform) (e : Event) : LineOk (step scr d e) := by
  unfold Desktop.step
  split
  · exact h
  · cases e with
    | key s => exact h.keyScancode s
    | mouse b => exact h.same (mouseByte_sameLine scr d b)
    | tick sec => exact h.same ⟨rfl, rfl⟩

theorem after_lineOk (scr : Platform) (events : List Event) : LineOk (after scr events) := by
  induction events using List.reverseRecOn with
  | nil =>
    show LineOk init
    exact ⟨⟨by decide, List.not_mem_nil⟩, fun cmd hmem => absurd hmem List.not_mem_nil⟩
  | append_singleton events e ih =>
    rw [after_append]
    exact ih.step scr e

/-- **The terminal in any run of the desktop**: whatever its commands learn from the rest of the system, the
last 13 lines of their transcript are shown, and every command is echoed whole. -/
theorem terminal_session (b : Build) (scr : Platform) (events : List Event) (envs : List Env) :
    let cs := envs.zip (after scr events).commands
    (cs.foldl (fun t c => t.exec b c.1 c.2) (Terminal.init b)).shown =
        (lastLines termLines (cs.foldl (transcribe b) (welcome b))).map cut ∧
      ∀ c ∈ cs, c.2 ≠ [] → (echo c.2).map cut = [ascii "orion > " ++ c.2] := by
  intro cs
  have hinit : Shows (Terminal.init b) (welcome b) := foldl_termPush_shows .boot (welcome b)
  refine ⟨(run_shows b hinit cs).shown, ?_⟩
  intro c hmem hne
  obtain ⟨hlen, hzero⟩ := (after_lineOk scr events).commands c.2 (List.of_mem_zip hmem).2
  exact echo_whole hne hlen hzero

end Orion.Desktop
