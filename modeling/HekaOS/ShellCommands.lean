import HekaOS.NumberOutput

/-!
# The commands of the shell

`shell_execute` compares a line with the names of the commands one after the other. What a line asks for is a
`Command`; what a command does is not decided here. `shell_commands` is the table that `help` and `def` print
from.
-/

namespace HekaOS.Vga

/-- `keymap_t` -/
inductive Keymap | qwerty | azerty
  deriving DecidableEq, Repr

/-- `strcmp`, on the characters before the terminators. -/
def strcmp : List Byte → List Byte → ℤ
  | [], t => 0 - (t.headD 0).toNat
  | c :: s, t => if c = t.headD 0 then strcmp s t.tail else c.toNat - (t.headD 0).toNat

/-- What a line asks for: `usage` is a line whose arguments cannot be read, with the message for it. -/
inductive Command
  | reboot
  | shutdown
  | halt
  | help
  | man
  | explain (arg : List Byte)
  | clear
  | momentum
  | dmesg
  | plog (pid : BitVec 32)
  | pfeed (pid : BitVec 32) (text : List Byte)
  | memdump
  | traptest
  | keymap (layout : Keymap)
  | eyeproc
  | spawntsk (user : Bool) (slot : Option (BitVec 32))
  | kill (pid sig : BitVec 32)
  | signal (pid sig : BitVec 32)
  | usage (message : List Byte)
  | unknown (cmd : List Byte)
  | empty
  deriving DecidableEq

def plogUsage : List Byte := chars "plog: usage: plog <pid>\n"
def pfeedUsage : List Byte := chars "pfeed: usage: pfeed <pid> <text>\n"
def spawntskUsage : List Byte := chars "spawntsk: usage: spawntsk -k|-u [slot]\n"
def killUsage : List Byte := chars "kill: usage: kill <pid> <sig>\n"
def signalUsage : List Byte := chars "signal: usage: signal <pid> <sig>\n"

def plogArgs (args : List Byte) : Command :=
  match shellParseUint (shellSkipSpaces args) with
  | none => .usage plogUsage
  | some (_, pid) => .plog pid

def pfeedArgs (args : List Byte) : Command :=
  match shellParseUint (shellSkipSpaces args) with
  | none => .usage pfeedUsage
  | some (p, pid) =>
    let p := shellSkipSpaces p
    if p = [] then .usage pfeedUsage else .pfeed pid p

/-- The slot behind `-k` or `-u`, if there is one. -/
def spawnSlot (user : Bool) (p : List Byte) : Command :=
  let p := shellSkipSpaces p
  if p = [] then .spawntsk user none
  else
    match shellParseUint p with
    | none => .usage spawntskUsage
    | some (_, slot) => .spawntsk user (some slot)

def spawntskArgs (args : List Byte) : Command :=
  let p := shellSkipSpaces args
  if p.getD 0 0 ≠ 45 ∨ (p.getD 1 0 ≠ 107 ∧ p.getD 1 0 ≠ 117) ∨ (p.getD 2 0 ≠ 0 ∧ p.getD 2 0 ≠ 32) then
    .usage spawntskUsage
  else spawnSlot (p.getD 1 0 == 117) (p.drop 2)

/-- The arguments of `kill` and `signal`. -/
def pidSigArgs (make : BitVec 32 → BitVec 32 → Command) (usage args : List Byte) : Command :=
  match shellPidSig args with
  | none => .usage usage
  | some (pid, sig) => make pid sig

/-- The tests of `shell_execute`. -/
def shellCommand (cmd : List Byte) : Command :=
  if strcmp cmd (chars "reboot") = 0 then .reboot
  else if strcmp cmd (chars "shutdown") = 0 then .shutdown
  else if strcmp cmd (chars "halt") = 0 then .halt
  else if strcmp cmd (chars "help") = 0 then .help
  else if strcmp cmd (chars "man") = 0 ∨ shellStartsWith cmd (chars "man ") > 0 then .man
  else if strcmp cmd (chars "def") = 0 then .explain []
  else if shellStartsWith cmd (chars "def ") > 0 then .explain (cmd.drop 4)
  else if strcmp cmd (chars "clear") = 0 then .clear
  else if strcmp cmd (chars "momentum") = 0 then .momentum
  else if strcmp cmd (chars "dmesg") = 0 then .dmesg
  else if shellStartsWith cmd (chars "plog ") > 0 then plogArgs (cmd.drop 5)
  else if shellStartsWith cmd (chars "pfeed ") > 0 then pfeedArgs (cmd.drop 6)
  else if strcmp cmd (chars "memdump") = 0 then .memdump
  else if strcmp cmd (chars "traptest") = 0 then .traptest
  else if strcmp cmd (chars "keymap azerty") = 0 then .keymap .azerty
  else if strcmp cmd (chars "keymap qwerty") = 0 then .keymap .qwerty
  else if strcmp cmd (chars "eyeproc") = 0 then .eyeproc
  else if shellStartsWith cmd (chars "spawntsk ") > 0 then spawntskArgs (cmd.drop 9)
  else if shellStartsWith cmd (chars "kill ") > 0 then pidSigArgs .kill killUsage (cmd.drop 5)
  else if shellStartsWith cmd (chars "signal ") > 0 then pidSigArgs .signal signalUsage (cmd.drop 7)
  else if cmd ≠ [] then .unknown cmd
  else .empty

/-- `enum cmd_cat` -/
inductive CmdCat | man | hw | sw
  deriving DecidableEq, Repr

structure ShellCmd where
  name : List Byte
  cat : CmdCat
  desc : List Byte
  detail : List Byte

def shellCommands : List ShellCmd := [
  ⟨chars "help", .man, chars "show this help message",
    chars "  list every command grouped by section (MAN / HW / SW),\n  with a one-line description each.\n"⟩,
  ⟨chars "man <cmd>", .man, chars "per-command manual page (basic, in v0.5.0)",
    chars "  show the manual page for <cmd>. basic version lands in v0.5.0;\n  use 'def <cmd>' for a detailed explanation in the meantime.\n"⟩,
  ⟨chars "def <cmd>", .man, chars "explain a command in detail",
    chars "  print a detailed explanation of <cmd>: usage, flags and behaviour.\n  example: def spawntsk\n"⟩,
  ⟨chars "reboot", .hw, chars "reboot the system",
    chars "  reset the machine via the keyboard controller (out 0x64, 0xFE);\n  halts the CPU if the reset pulse does not take.\n"⟩,
  ⟨chars "shutdown", .hw, chars "power off the system (ACPI)",
    chars "  power off via ACPI: write SLP_EN to the PM1a control block\n  (QEMU 0x604, Bochs 0xB004, VirtualBox 0x4004). halts on failure.\n"⟩,
  ⟨chars "halt", .hw, chars "halt the CPU",
    chars "  mask interrupts and park the CPU in hlt; nothing runs afterwards.\n"⟩,
  ⟨chars "keymap qwerty|azerty", .hw, chars "select keyboard layout",
    chars "  switch the scancode-to-ASCII layout used by the keyboard driver.\n  takes effect immediately.\n"⟩,
  ⟨chars "traptest", .hw, chars "trigger INT 0x42 and dump the trap frame",
    chars "  raise software interrupt INT 0x42 to exercise the trap-frame\n  save/restore path, then dump the captured frame. no side effects.\n"⟩,
  ⟨chars "clear", .sw, chars "clear the terminal screen",
    chars "  reinitialise the terminal: blank the screen and home the cursor.\n"⟩,
  ⟨chars "momentum", .sw, chars "dump current task execution context",
    chars "  dump the current task's execution context: pid, parent, state\n  and live register/stack snapshot.\n"⟩,
  ⟨chars "memdump", .sw, chars "display memory usage summary",
    chars "  summarise kernel allocators: kmalloc chunk pool (zone, pages,\n  free objects) and vmalloc zone (used/total pages). not physical RAM.\n"⟩,
  ⟨chars "dmesg", .sw, chars "display kernel ring buffer",
    chars "  print the kernel log ring buffer (pr_* messages since boot).\n"⟩,
  ⟨chars "plog <pid>", .sw, chars "dump a process output log",
    chars "  print what process <pid> wrote to fd 1/2, captured in its own\n  per-task ring buffer. lost once the process is reaped.\n"⟩,
  ⟨chars "pfeed <pid> <text>", .sw, chars "inject input into a process",
    chars "  push <text> plus a newline into process <pid>'s input buffer;\n  the process reads it back via read(fd 0). non-blocking.\n"⟩,
  ⟨chars "eyeproc", .sw, chars "full-screen process grid (ESC to quit)",
    chars "  full-screen live grid of all processes; refreshes continuously.\n  press ESC to return to the shell.\n"⟩,
  ⟨chars "spawntsk -k|-u [N]", .sw, chars "run kthread/user test N (or all)",
    chars "  launch a test payload. -k: kernel thread (ring 0);\n  -u: user process (ring 3, syscalls via int 0x80).\n  [N]: 1-based slot to run a single test; omit to launch them all.\n"⟩,
  ⟨chars "kill <pid> <sig>", .sw, chars "send signal sig to pid",
    chars "  send signal <sig> to process <pid> (both decimal). the default\n  action applies unless a handler was installed (see 'def signal').\n"⟩,
  ⟨chars "signal <pid> <sig>", .sw, chars "install a debug handler on pid for sig",
    chars "  install a debug handler on <pid> for signal <sig>, so delivery\n  is logged instead of taking the default action. pair with kill.\n"⟩]

/-- The loop of `shell_def` that compares a name with the argument, and the test behind it. -/
def namedBy : List Byte → List Byte → Bool
  | [], arg => arg == []
  | c :: name, arg => if c ≠ 32 ∧ arg.head? = some c then namedBy name arg.tail else c == 32 && arg == []

/-- The entry that `shell_def` explains. -/
def shellDefEntry (arg : List Byte) : Option ShellCmd := shellCommands.find? fun e => namedBy e.name arg

/-- What `shell_def` prints. -/
def shellDef (arg : List Byte) : List Byte :=
  let arg := shellSkipSpaces arg
  if arg = [] then chars "def: usage: def <command>\n"
  else
    match shellDefEntry arg with
    | some e => e.name ++ [10] ++ e.detail
    | none => chars "def: unknown command: " ++ arg ++ [10]

/-- `width` of `shell_help_section`. -/
def sectionWidth (cat : CmdCat) : ℕ :=
  shellCommands.foldl (fun width e => if e.cat = cat then if e.name.length > width then e.name.length else width else width) 0

/-- What `shell_help_section` prints. -/
def shellHelpSection (title : List Byte) (cat : CmdCat) : List Byte :=
  title ++ (shellCommands.filter fun e => e.cat = cat).flatMap fun e =>
    chars "  " ++ e.name ++ List.replicate (sectionWidth cat - e.name.length) 32 ++ chars " - " ++ e.desc ++ [10]

def shellHelp : List Byte :=
  chars "available commands:\n\n" ++ shellHelpSection (chars "MAN:\n") .man ++ [10] ++
    shellHelpSection (chars "HW:\n") .hw ++ [10] ++ shellHelpSection (chars "SW:\n") .sw

variable {cmd rest s t sp sp' ds ds' args p text w : List Byte} {c : Command} {v : BitVec 32}

/-! ### Strings -/

theorem strcmp_eq_zero (hs : 0 ∉ s) (ht : 0 ∉ t) : strcmp s t = 0 ↔ s = t := by
  induction s generalizing t with
  | nil =>
    cases t with
    | nil => exact ⟨fun _ => rfl, fun _ => rfl⟩
    | cons d t =>
      have hd : d.toNat ≠ 0 := fun hzero => ht (List.mem_cons.mpr (.inl (BitVec.eq_of_toNat_eq hzero).symm))
      have hcmp : strcmp [] (d :: t) = 0 - (d.toNat : ℤ) := rfl
      rw [hcmp]
      refine ⟨fun h => ?_, fun h => nomatch h⟩
      omega
  | cons b s ih =>
    have hb : b ≠ 0 := fun hzero => hs (List.mem_cons.mpr (.inl hzero.symm))
    rw [strcmp]
    cases t with
    | nil =>
      rw [List.headD_nil, if_neg hb]
      refine ⟨fun h => ?_, fun h => nomatch h⟩
      have hnone : (0 : Byte).toNat = 0 := rfl
      have hzero : b.toNat = 0 := by omega
      exact absurd (BitVec.eq_of_toNat_eq hzero) hb
    | cons d t =>
      rw [List.headD_cons, List.tail_cons]
      by_cases hbd : b = d
      · rw [if_pos hbd, ih (fun hmem => hs (List.mem_cons_of_mem _ hmem)) fun hmem => ht (List.mem_cons_of_mem _ hmem),
          hbd, List.cons.injEq, and_iff_right rfl]
      · rw [if_neg hbd]
        refine ⟨fun h => ?_, fun h => absurd (List.cons.inj h).1 hbd⟩
        have hsame : b.toNat = d.toNat := by omega
        exact absurd (BitVec.eq_of_toNat_eq hsame) hbd

theorem startsWithFrom_pos {i : ℕ} (h : 0 < startsWithFrom cmd s i) : s <+: cmd := by
  induction s generalizing cmd i with
  | nil => exact List.nil_prefix
  | cons d s ih =>
    cases cmd with
    | nil => exact absurd h (Nat.lt_irrefl 0)
    | cons b cmd =>
      rw [startsWithFrom] at h
      split at h
      · exact absurd h (Nat.lt_irrefl 0)
      · rename_i hbd
        rw [ne_eq, not_not] at hbd
        rw [hbd]
        exact (List.prefix_cons_inj d).mpr (ih h)

/-- The rest of a line that starts with a word. -/
theorem startsWith_rest (h : shellStartsWith cmd s > 0) : cmd = s ++ cmd.drop s.length :=
  List.prefix_iff_eq_append.mp (startsWithFrom_pos h) |>.symm

/-! ### The grammar of command lines -/

def Blank (sp : List Byte) : Prop := ∀ c ∈ sp, c = 32

structure Number (ds : List Byte) : Prop where
  nonempty : ds ≠ []
  digits : ∀ c ∈ ds, isDigit c = true

/-- The number that a command uses for the digits it finds. -/
def numberOf (ds : List Byte) : BitVec 32 := BitVec.ofNat 32 (Numerals.value 10 (ds.map digitOf))

def NoSpaceFirst (rest : List Byte) : Prop := rest.head? ≠ some 32

/-- The lines that ask for a command. Behind a number, anything may stand that does not go on with it. -/
inductive Asks : List Byte → Command → Prop
  | reboot : Asks (chars "reboot") .reboot
  | shutdown : Asks (chars "shutdown") .shutdown
  | halt : Asks (chars "halt") .halt
  | help : Asks (chars "help") .help
  | man : Asks (chars "man") .man
  | manOf (rest : List Byte) : Asks (chars "man " ++ rest) .man
  | explain : Asks (chars "def") (.explain [])
  | explainOf (rest : List Byte) : Asks (chars "def " ++ rest) (.explain rest)
  | clear : Asks (chars "clear") .clear
  | momentum : Asks (chars "momentum") .momentum
  | dmesg : Asks (chars "dmesg") .dmesg
  | plog {sp ds rest : List Byte} (hsp : Blank sp) (hds : Number ds) (hrest : NoDigitFirst rest) :
      Asks (chars "plog " ++ (sp ++ (ds ++ rest))) (.plog (numberOf ds))
  | pfeed {sp ds sp' text : List Byte} (hsp : Blank sp) (hds : Number ds) (hsp' : Blank sp')
      (hend : NoDigitFirst (sp' ++ text)) (htext : text ≠ []) (hfirst : NoSpaceFirst text) :
      Asks (chars "pfeed " ++ (sp ++ (ds ++ (sp' ++ text)))) (.pfeed (numberOf ds) text)
  | memdump : Asks (chars "memdump") .memdump
  | traptest : Asks (chars "traptest") .traptest
  | azerty : Asks (chars "keymap azerty") (.keymap .azerty)
  | qwerty : Asks (chars "keymap qwerty") (.keymap .qwerty)
  | eyeproc : Asks (chars "eyeproc") .eyeproc
  | spawnAll {sp sp' : List Byte} (hsp : Blank sp) (user : Bool) (hsp' : Blank sp') :
      Asks (chars "spawntsk " ++ (sp ++ 45 :: (if user then 117 else 107) :: sp')) (.spawntsk user none)
  | spawn {sp sp' ds rest : List Byte} (hsp : Blank sp) (user : Bool) (hsp' : Blank sp') (hgap : sp' ≠ []) (hds : Number ds)
      (hrest : NoDigitFirst rest) :
      Asks (chars "spawntsk " ++ (sp ++ 45 :: (if user then 117 else 107) :: (sp' ++ (ds ++ rest))))
        (.spawntsk user (some (numberOf ds)))
  | kill {sp ds sp' ds' rest : List Byte} (hsp : Blank sp) (hds : Number ds) (hsp' : Blank sp') (hgap : sp' ≠ [])
      (hds' : Number ds') (hrest : NoDigitFirst rest) :
      Asks (chars "kill " ++ (sp ++ (ds ++ (sp' ++ (ds' ++ rest))))) (.kill (numberOf ds) (numberOf ds'))
  | signal {sp ds sp' ds' rest : List Byte} (hsp : Blank sp) (hds : Number ds) (hsp' : Blank sp') (hgap : sp' ≠ [])
      (hds' : Number ds') (hrest : NoDigitFirst rest) :
      Asks (chars "signal " ++ (sp ++ (ds ++ (sp' ++ (ds' ++ rest))))) (.signal (numberOf ds) (numberOf ds'))

/-! ### Spaces and numbers -/

theorem skip_blank (hsp : Blank sp) (hrest : NoSpaceFirst rest) : shellSkipSpaces (sp ++ rest) = rest := by
  have hblank : ∀ c ∈ sp, (c == 32) = true := fun c hc => by rw [hsp c hc]; rfl
  rw [shellSkipSpaces, List.dropWhile_append_of_pos hblank]
  cases rest with
  | nil => rfl
  | cons c rest =>
    have hc : ¬(c == 32) = true := fun heq => hrest (congrArg some (eq_of_beq heq))
    exact List.dropWhile_cons_of_neg hc

theorem skip_all (hsp : Blank sp) : shellSkipSpaces sp = [] := by
  have hskip := skip_blank hsp (show NoSpaceFirst [] from nofun)
  rwa [List.append_nil] at hskip

theorem skip_split (p : List Byte) : ∃ sp, Blank sp ∧ p = sp ++ shellSkipSpaces p ∧ NoSpaceFirst (shellSkipSpaces p) := by
  refine ⟨p.takeWhile fun c => c == 32, fun c hc => ?_, List.takeWhile_append_dropWhile.symm, fun hfirst => ?_⟩
  · have hspace : (c == 32) = true := List.mem_takeWhile_imp (p := fun c => c == 32) hc
    exact eq_of_beq hspace
  · have hhead := List.head?_dropWhile_not (fun c : Byte => c == 32) p
    rw [shellSkipSpaces] at hfirst
    rw [hfirst] at hhead
    exact absurd hhead (by decide)

theorem Number.cons (h : Number ds) : ∃ d t, ds = d :: t ∧ isDigit d = true := by
  obtain ⟨d, t, rfl⟩ := List.exists_cons_of_ne_nil h.nonempty
  exact ⟨d, t, rfl, h.digits d List.mem_cons_self⟩

/-- A number does not start with a space. -/
theorem Number.noSpace (h : Number ds) (rest : List Byte) : NoSpaceFirst (ds ++ rest) := by
  obtain ⟨d, t, rfl, hd⟩ := h.cons
  intro hfirst
  obtain rfl : d = 32 := Option.some.inj hfirst
  exact absurd hd (by decide)

theorem parse_number (hds : Number ds) (hrest : NoDigitFirst rest) :
    shellParseUint (ds ++ rest) = some (rest, numberOf ds) := by
  obtain ⟨hrun, hbehind⟩ := digitRun_append hds.digits hrest
  rw [shellParseUint_eq, hrun, if_neg hds.nonempty, hbehind, typedNumber, hrun]
  rfl

theorem parse_split (h : shellParseUint p = some (rest, v)) :
    ∃ ds, Number ds ∧ p = ds ++ rest ∧ NoDigitFirst rest ∧ v = numberOf ds := by
  rw [shellParseUint_eq] at h
  split at h
  · cases h
  · rename_i hdigits
    obtain ⟨rfl, rfl⟩ := Prod.mk.inj (Option.some.inj h)
    refine ⟨digitRun p, ⟨hdigits, fun c hc => List.mem_takeWhile_imp hc⟩, List.takeWhile_append_dropWhile.symm,
      fun c hc => ?_, rfl⟩
    have hhead := List.head?_dropWhile_not isDigit p
    rw [hc] at hhead
    simpa using hhead

/-- A number behind spaces. -/
theorem parse_blank (hsp : Blank sp) (hds : Number ds) (hrest : NoDigitFirst rest) :
    shellParseUint (shellSkipSpaces (sp ++ (ds ++ rest))) = some (rest, numberOf ds) := by
  rw [skip_blank hsp (hds.noSpace rest), parse_number hds hrest]

theorem parse_blank_split (h : shellParseUint (shellSkipSpaces args) = some (rest, v)) :
    ∃ sp ds, Blank sp ∧ Number ds ∧ args = sp ++ (ds ++ rest) ∧ NoDigitFirst rest ∧ v = numberOf ds := by
  obtain ⟨sp, hsp, hargs, -⟩ := skip_split args
  obtain ⟨ds, hds, hp, hrest, hv⟩ := parse_split h
  rw [hp] at hargs
  exact ⟨sp, ds, hsp, hds, hargs, hrest, hv⟩

/-- A space is no digit. -/
theorem Blank.noDigit (hsp : Blank sp) (hgap : sp ≠ []) (rest : List Byte) : NoDigitFirst (sp ++ rest) := by
  obtain ⟨d, t, rfl⟩ := List.exists_cons_of_ne_nil hgap
  intro c hc
  obtain rfl : d = c := Option.some.inj hc
  rw [hsp d List.mem_cons_self]
  rfl

/-- Between two numbers there are spaces. -/
theorem gap_of_noDigit (hds : Number ds) (hrest : NoDigitFirst (sp ++ (ds ++ rest))) : sp ≠ [] := by
  rintro rfl
  obtain ⟨d, t, rfl, hd⟩ := hds.cons
  have hno := hrest d rfl
  rw [hd] at hno
  cases hno

theorem pidSig_eq_some {pid sig : BitVec 32} : shellPidSig args = some (pid, sig) ↔ ∃ sp ds sp' ds' rest,
    (Blank sp ∧ Number ds ∧ Blank sp' ∧ sp' ≠ [] ∧ Number ds' ∧ NoDigitFirst rest) ∧
      args = sp ++ (ds ++ (sp' ++ (ds' ++ rest))) ∧ pid = numberOf ds ∧ sig = numberOf ds' := by
  constructor
  · intro h
    obtain ⟨⟨p, u⟩, hpid, h⟩ := Option.bind_eq_some_iff.mp h
    obtain ⟨⟨q, v⟩, hsig, h⟩ := Option.bind_eq_some_iff.mp h
    obtain ⟨rfl, rfl⟩ := Prod.mk.inj (Option.some.inj h)
    obtain ⟨sp, ds, hsp, hds, hargs, hnext, hu⟩ := parse_blank_split hpid
    obtain ⟨sp', ds', hsp', hds', hp, hrest, hv⟩ := parse_blank_split hsig
    rw [hp] at hargs hnext
    exact ⟨sp, ds, sp', ds', q, ⟨hsp, hds, hsp', gap_of_noDigit hds' hnext, hds', hrest⟩, hargs, hu, hv⟩
  · rintro ⟨sp, ds, sp', ds', rest, ⟨hsp, hds, hsp', hgap, hds', hrest⟩, rfl, rfl, rfl⟩
    unfold shellPidSig
    rw [parse_blank hsp hds (hsp'.noDigit hgap _)]
    change (shellParseUint (shellSkipSpaces (sp' ++ (ds' ++ rest))) >>= _) = _
    rw [parse_blank hsp' hds' hrest]
    rfl

/-! ### What `shell_execute` takes for a command -/

/-- The line is neither empty nor unknown, and its arguments could be read. -/
def Command.Proper : Command → Prop
  | .usage _ => False
  | .unknown _ => False
  | .empty => False
  | _ => True

theorem improper {m : List Byte} (h : Command.usage m = c) : ¬c.Proper := by
  subst h
  exact id

theorem plogArgs_eq (hc : c.Proper) (h : plogArgs args = c) : Asks (chars "plog " ++ args) c := by
  unfold plogArgs at h
  split at h
  · exact (improper h hc).elim
  · rename_i rest pid hparse
    obtain ⟨sp, ds, hsp, hds, hargs, hrest, hv⟩ := parse_blank_split hparse
    rw [← h, hv, hargs]
    exact .plog hsp hds hrest

theorem pfeedArgs_eq (hc : c.Proper) (h : pfeedArgs args = c) : Asks (chars "pfeed " ++ args) c := by
  unfold pfeedArgs at h
  split at h
  · exact (improper h hc).elim
  · rename_i p pid hparse
    dsimp only at h
    split at h
    · exact (improper h hc).elim
    · rename_i htext
      obtain ⟨sp, ds, hsp, hds, hargs, hrest, hv⟩ := parse_blank_split hparse
      obtain ⟨sp', hsp', hp, hfirst⟩ := skip_split p
      rw [← h, hv, hargs]
      rw [hp] at hrest
      nth_rewrite 1 [hp]
      exact .pfeed hsp hds hsp' hrest htext hfirst

theorem pidSigArgs_eq {make : BitVec 32 → BitVec 32 → Command} {usage : List Byte} (hc : c.Proper)
    (h : pidSigArgs make usage args = c) : ∃ pid sig, shellPidSig args = some (pid, sig) ∧ c = make pid sig := by
  unfold pidSigArgs at h
  split at h
  · exact (improper h hc).elim
  · rename_i pid sig hargs
    exact ⟨pid, sig, hargs, h.symm⟩

/-- What `spawntsk` wants to see behind the spaces: the flag, and a space or the end of the line. -/
theorem spawntsk_flag (hflag : ¬(p.getD 0 0 ≠ 45 ∨ (p.getD 1 0 ≠ 107 ∧ p.getD 1 0 ≠ 117) ∨ (p.getD 2 0 ≠ 0 ∧ p.getD 2 0 ≠ 32)))
    (hzero : 0 ∉ p) : ∃ (user : Bool) (rest : List Byte),
    p = 45 :: (if user then 117 else 107) :: rest ∧ (rest = [] ∨ ∃ q, rest = 32 :: q) := by
  simp only [not_or, not_and_or, ne_eq, not_not] at hflag
  obtain ⟨hdash, hflag, hend⟩ := hflag
  match p, hdash, hflag, hend, hzero with
  | [], hdash, _, _, _ => exact absurd hdash (by decide)
  | [_], _, hflag, _, _ =>
    rw [List.getD_cons_succ, List.getD_nil] at hflag
    exact absurd hflag (by decide)
  | a :: b :: rest, hdash, hflag, hend, hzero =>
    obtain rfl : a = 45 := hdash
    have hrest : rest = [] ∨ ∃ q, rest = 32 :: q := by
      cases rest with
      | nil => exact .inl rfl
      | cons d q =>
        refine .inr ⟨q, ?_⟩
        rcases hend with hd | hd
        · obtain rfl : d = 0 := hd
          exact absurd (by simp) hzero
        · obtain rfl : d = 32 := hd
          rfl
    rcases hflag with hb | hb
    · obtain rfl : b = 107 := hb
      exact ⟨false, rest, rfl, hrest⟩
    · obtain rfl : b = 117 := hb
      exact ⟨true, rest, rfl, hrest⟩

theorem spawnSlot_eq {user : Bool} (hc : c.Proper) (hrest : rest = [] ∨ ∃ q, rest = 32 :: q) (hsp : Blank sp)
    (h : spawnSlot user rest = c) : Asks (chars "spawntsk " ++ (sp ++ 45 :: (if user then 117 else 107) :: rest)) c := by
  obtain ⟨sp', hsp', hsplit, hfirst⟩ := skip_split rest
  unfold spawnSlot at h
  dsimp only at h
  split at h
  · rename_i hnone
    rw [hnone, List.append_nil] at hsplit
    rw [← h, hsplit]
    exact .spawnAll hsp user hsp'
  · rename_i hsome
    split at h
    · exact (improper h hc).elim
    · rename_i tail slot hparse
      obtain ⟨ds, hds, hnum, hend, hv⟩ := parse_split hparse
      have hgap : sp' ≠ [] := by
        rintro rfl
        rw [List.nil_append] at hsplit
        rcases hrest with rfl | ⟨q, rfl⟩
        · exact hsome rfl
        · rw [← hsplit] at hfirst
          exact hfirst rfl
      rw [← h, hv, hsplit, hnum]
      exact .spawn hsp user hsp' hgap hds hend

theorem spawntskArgs_eq (hc : c.Proper) (hzero : 0 ∉ args) (h : spawntskArgs args = c) :
    Asks (chars "spawntsk " ++ args) c := by
  obtain ⟨sp, hsp, hargs, -⟩ := skip_split args
  unfold spawntskArgs at h
  dsimp only at h
  split at h
  · exact (improper h hc).elim
  · rename_i hflag
    have hskip : 0 ∉ shellSkipSpaces args := fun hmem => hzero ((List.dropWhile_sublist _).mem hmem)
    obtain ⟨user, rest, hp, hrest⟩ := spawntsk_flag hflag hskip
    have huser : ((if user then 117 else 107 : Byte) == 117) = user := by cases user <;> rfl
    rw [hp] at h hargs
    change spawnSlot ((if user then 117 else 107 : Byte) == 117) rest = c at h
    rw [huser] at h
    rw [hargs]
    exact spawnSlot_eq hc hrest hsp h

/-! ### The tests, one after the other -/

theorem shellCommand_man (rest : List Byte) : shellCommand (chars "man " ++ rest) = .man := by
  cases rest <;> rfl

theorem shellCommand_def (rest : List Byte) : shellCommand (chars "def " ++ rest) = .explain rest := by
  cases rest <;> rfl

theorem shellCommand_plog (rest : List Byte) : shellCommand (chars "plog " ++ rest) = plogArgs rest := by
  cases rest <;> rfl

theorem shellCommand_pfeed (rest : List Byte) : shellCommand (chars "pfeed " ++ rest) = pfeedArgs rest := by
  cases rest <;> rfl

theorem shellCommand_spawntsk (rest : List Byte) : shellCommand (chars "spawntsk " ++ rest) = spawntskArgs rest := by
  cases rest <;> rfl

theorem shellCommand_kill (rest : List Byte) :
    shellCommand (chars "kill " ++ rest) = pidSigArgs .kill killUsage rest := by
  cases rest <;> rfl

theorem shellCommand_signal (rest : List Byte) :
    shellCommand (chars "signal " ++ rest) = pidSigArgs .signal signalUsage rest := by
  cases rest <;> rfl

theorem spawntskArgs_flag (hsp : Blank sp) (user : Bool) (hrest : rest = [] ∨ ∃ q, rest = 32 :: q) :
    spawntskArgs (sp ++ 45 :: (if user then 117 else 107) :: rest) = spawnSlot user rest := by
  have hfirst : NoSpaceFirst (45 :: (if user then 117 else 107 : Byte) :: rest) := by
    intro h
    exact absurd (Option.some.inj h) (by decide)
  unfold spawntskArgs
  rw [skip_blank hsp hfirst]
  rcases hrest with rfl | ⟨q, rfl⟩
  · cases user <;> rfl
  · cases user <;> rfl

/-- A line of the grammar is understood. -/
theorem Asks.command (h : Asks cmd c) : shellCommand cmd = c := by
  cases h with
  | manOf rest => exact shellCommand_man rest
  | explainOf rest => exact shellCommand_def rest
  | plog hsp hds hrest =>
    rw [shellCommand_plog, plogArgs, parse_blank hsp hds hrest]
  | pfeed hsp hds hsp' hend htext hfirst =>
    rw [shellCommand_pfeed, pfeedArgs, parse_blank hsp hds hend]
    dsimp only
    rw [skip_blank hsp' hfirst, if_neg htext]
  | spawnAll hsp user hsp' =>
    rename_i sp sp'
    have hrest : sp' = [] ∨ ∃ q, sp' = 32 :: q := by
      cases sp' with
      | nil => exact .inl rfl
      | cons d q => exact .inr ⟨q, by rw [hsp' d List.mem_cons_self]⟩
    rw [shellCommand_spawntsk, spawntskArgs_flag hsp user hrest, spawnSlot, skip_all hsp']
    rfl
  | spawn hsp user hsp' hgap hds hrest =>
    rename_i sp sp' ds rest
    obtain ⟨d, q, rfl⟩ := List.exists_cons_of_ne_nil hgap
    have hspace : (d :: q) ++ (ds ++ rest) = 32 :: (q ++ (ds ++ rest)) := by
      rw [hsp' d List.mem_cons_self]
      rfl
    rw [shellCommand_spawntsk, spawntskArgs_flag hsp user (.inr ⟨_, hspace⟩), spawnSlot]
    rw [skip_blank hsp' (hds.noSpace rest), if_neg (List.append_ne_nil_of_left_ne_nil hds.nonempty rest),
      parse_number hds hrest]
  | kill hsp hds hsp' hgap hds' hrest =>
    rw [shellCommand_kill, pidSigArgs, pidSig_eq_some.mpr ⟨_, _, _, _, _, ⟨hsp, hds, hsp', hgap, hds', hrest⟩, rfl, rfl, rfl⟩]
  | signal hsp hds hsp' hgap hds' hrest =>
    rw [shellCommand_signal, pidSigArgs,
      pidSig_eq_some.mpr ⟨_, _, _, _, _, ⟨hsp, hds, hsp', hgap, hds', hrest⟩, rfl, rfl, rfl⟩]
  | _ => rfl

theorem ite_cases {α : Type} {q : Prop} [Decidable q] {x y z : α} (h : (if q then x else y) = z) :
    q ∧ x = z ∨ ¬q ∧ y = z := by
  by_cases hq : q
  · exact .inl ⟨hq, (if_pos hq).symm.trans h⟩
  · exact .inr ⟨hq, (if_neg hq).symm.trans h⟩

/-- What is understood as a command is a line of the grammar. -/
theorem asks_of_command (hzero : 0 ∉ cmd) (hc : c.Proper) (h : shellCommand cmd = c) : Asks cmd c := by
  have hword : ∀ {w : List Byte}, 0 ∉ w → strcmp cmd w = 0 → cmd = w := fun hw => (strcmp_eq_zero hzero hw).mp
  have hstart : ∀ {w : List Byte}, shellStartsWith cmd w > 0 → cmd = w ++ cmd.drop w.length := startsWith_rest
  have hdrop : 0 ∉ cmd.drop 9 := fun hmem => hzero ((List.drop_sublist 9 cmd).mem hmem)
  unfold shellCommand at h
  obtain ⟨hw, rfl⟩ | ⟨-, h⟩ := ite_cases h
  · rw [hword (by decide) hw]
    exact .reboot
  obtain ⟨hw, rfl⟩ | ⟨-, h⟩ := ite_cases h
  · rw [hword (by decide) hw]
    exact .shutdown
  obtain ⟨hw, rfl⟩ | ⟨-, h⟩ := ite_cases h
  · rw [hword (by decide) hw]
    exact .halt
  obtain ⟨hw, rfl⟩ | ⟨-, h⟩ := ite_cases h
  · rw [hword (by decide) hw]
    exact .help
  obtain ⟨hw, rfl⟩ | ⟨-, h⟩ := ite_cases h
  · rcases hw with hw | hw
    · rw [hword (by decide) hw]
      exact .man
    · rw [hstart hw]
      exact .manOf _
  obtain ⟨hw, rfl⟩ | ⟨-, h⟩ := ite_cases h
  · rw [hword (by decide) hw]
    exact .explain
  obtain ⟨hw, rfl⟩ | ⟨-, h⟩ := ite_cases h
  · nth_rewrite 1 [hstart hw]
    exact .explainOf _
  obtain ⟨hw, rfl⟩ | ⟨-, h⟩ := ite_cases h
  · rw [hword (by decide) hw]
    exact .clear
  obtain ⟨hw, rfl⟩ | ⟨-, h⟩ := ite_cases h
  · rw [hword (by decide) hw]
    exact .momentum
  obtain ⟨hw, rfl⟩ | ⟨-, h⟩ := ite_cases h
  · rw [hword (by decide) hw]
    exact .dmesg
  obtain ⟨hw, h⟩ | ⟨-, h⟩ := ite_cases h
  · rw [hstart hw]
    exact plogArgs_eq hc h
  obtain ⟨hw, h⟩ | ⟨-, h⟩ := ite_cases h
  · rw [hstart hw]
    exact pfeedArgs_eq hc h
  obtain ⟨hw, rfl⟩ | ⟨-, h⟩ := ite_cases h
  · rw [hword (by decide) hw]
    exact .memdump
  obtain ⟨hw, rfl⟩ | ⟨-, h⟩ := ite_cases h
  · rw [hword (by decide) hw]
    exact .traptest
  obtain ⟨hw, rfl⟩ | ⟨-, h⟩ := ite_cases h
  · rw [hword (by decide) hw]
    exact .azerty
  obtain ⟨hw, rfl⟩ | ⟨-, h⟩ := ite_cases h
  · rw [hword (by decide) hw]
    exact .qwerty
  obtain ⟨hw, rfl⟩ | ⟨-, h⟩ := ite_cases h
  · rw [hword (by decide) hw]
    exact .eyeproc
  obtain ⟨hw, h⟩ | ⟨-, h⟩ := ite_cases h
  · rw [hstart hw]
    exact spawntskArgs_eq hc hdrop h
  obtain ⟨hw, h⟩ | ⟨-, h⟩ := ite_cases h
  · rw [hstart hw]
    obtain ⟨pid, sig, hargs, rfl⟩ := pidSigArgs_eq hc h
    obtain ⟨sp, ds, sp', ds', rest, ⟨hsp, hds, hsp', hgap, hds', hrest⟩, hsplit, rfl, rfl⟩ := pidSig_eq_some.mp hargs
    change Asks (chars "kill " ++ cmd.drop 5) _
    rw [hsplit]
    exact .kill hsp hds hsp' hgap hds' hrest
  obtain ⟨hw, h⟩ | ⟨-, h⟩ := ite_cases h
  · rw [hstart hw]
    obtain ⟨pid, sig, hargs, rfl⟩ := pidSigArgs_eq hc h
    obtain ⟨sp, ds, sp', ds', rest, ⟨hsp, hds, hsp', hgap, hds', hrest⟩, hsplit, rfl, rfl⟩ := pidSig_eq_some.mp hargs
    change Asks (chars "signal " ++ cmd.drop 7) _
    rw [hsplit]
    exact .signal hsp hds hsp' hgap hds' hrest
  obtain ⟨-, rfl⟩ | ⟨-, rfl⟩ := ite_cases h
  · exact hc.elim
  · exact hc.elim

/-- `shell_execute` understands the lines of the grammar, and no others. -/
theorem shell_execute_grammar (cmd : List Byte) (c : Command) (hzero : 0 ∉ cmd) (hc : c.Proper) :
    shellCommand cmd = c ↔ Asks cmd c := ⟨asks_of_command hzero hc, Asks.command⟩

/-- The spaces may be more than one, what stands behind the second number is not looked at, and the first one
is taken modulo `2 ^ 32`. -/
theorem shell_execute_grammar_kill : Asks (chars "kill  4294967299 9x") (.kill 3 9) :=
  (shell_execute_grammar (chars "kill  4294967299 9x") (.kill 3 9) (by decide) trivial).mp (by decide)

/-! ### The table and the tests -/

/-- The part of a name or a line before the first space. -/
def firstWord (s : List Byte) : List Byte := s.takeWhile fun c => c != 32

theorem firstWord_cons_of_ne {b : Byte} (hb : b ≠ 32) (s : List Byte) : firstWord (b :: s) = b :: firstWord s :=
  List.takeWhile_cons_of_pos (bne_iff_ne.mpr hb)

theorem namedBy_iff (name arg : List Byte) : namedBy name arg = true ↔ arg = firstWord name := by
  induction name generalizing arg with
  | nil => exact beq_iff_eq
  | cons b name ih =>
    unfold namedBy
    by_cases hb : b = 32
    · subst hb
      have hempty : firstWord (32 :: name) = [] := List.takeWhile_cons_of_neg (by decide)
      rw [if_neg fun h => h.1 rfl, hempty, beq_self_eq_true, Bool.true_and]
      exact beq_iff_eq
    · have hspace : (b == 32) = false := beq_eq_false_iff_ne.mpr hb
      rw [firstWord_cons_of_ne hb]
      cases arg with
      | nil =>
        have hstop : ¬(b ≠ 32 ∧ ([] : List Byte).head? = some b) := fun h => nomatch h.2
        rw [if_neg hstop, hspace, Bool.false_and]
        exact ⟨fun h => absurd h Bool.false_ne_true, fun h => nomatch h⟩
      | cons d arg =>
        rw [List.head?_cons, List.tail_cons, List.cons.injEq]
        by_cases hd : d = b
        · rw [if_pos ⟨hb, congrArg some hd⟩, ih, and_iff_right hd]
        · rw [if_neg fun h => hd (Option.some.inj h.2), hspace]
          exact ⟨fun h => absurd h Bool.false_ne_true, fun h => absurd h.1 hd⟩

/-- The words that `help` lists. -/
def commandWords : List (List Byte) := shellCommands.map fun e => firstWord e.name

theorem shellDefEntry_isSome (w : List Byte) : (shellDefEntry w).isSome = true ↔ w ∈ commandWords := by
  rw [shellDefEntry, List.find?_isSome, commandWords, List.mem_map]
  exact exists_congr fun e => and_congr_right fun _ => (namedBy_iff e.name w).trans eq_comm

/-- What is understood starts with a word of the table. -/
theorem Asks.word (h : Asks cmd c) : firstWord cmd ∈ commandWords := by
  have hword : ∀ {w : List Byte} (rest : List Byte), 32 ∉ w → firstWord (w ++ 32 :: rest) = w := by
    intro w rest hw
    have hpos : ∀ b ∈ w, (b != 32) = true := fun b hb => bne_iff_ne.mpr fun h => hw (h ▸ hb)
    rw [firstWord, List.takeWhile_append_of_pos hpos, List.takeWhile_cons_of_neg (by decide), List.append_nil]
  have hmem : ∀ {w : List Byte} (rest : List Byte), 32 ∉ w → w ∈ commandWords →
      firstWord (w ++ [32] ++ rest) ∈ commandWords := by
    intro w rest hw hmem
    rw [List.append_assoc, List.singleton_append, hword rest hw]
    exact hmem
  cases h with
  | manOf rest => exact hmem rest (w := chars "man") (by decide) (by decide +kernel)
  | explainOf rest => exact hmem rest (w := chars "def") (by decide) (by decide +kernel)
  | plog => exact hmem _ (w := chars "plog") (by decide) (by decide +kernel)
  | pfeed => exact hmem _ (w := chars "pfeed") (by decide) (by decide +kernel)
  | spawnAll => exact hmem _ (w := chars "spawntsk") (by decide) (by decide +kernel)
  | spawn => exact hmem _ (w := chars "spawntsk") (by decide) (by decide +kernel)
  | kill => exact hmem _ (w := chars "kill") (by decide) (by decide +kernel)
  | signal => exact hmem _ (w := chars "signal") (by decide) (by decide +kernel)
  | _ => decide +kernel

/-- A line for each command. -/
def sampleLines : List (List Byte) :=
  ["help", "man", "def", "reboot", "shutdown", "halt", "keymap azerty", "traptest", "clear", "momentum", "memdump",
    "dmesg", "plog 1", "pfeed 1 x", "eyeproc", "spawntsk -k", "kill 1 9", "signal 1 2"].map chars

instance : DecidablePred Command.Proper := fun c => by
  unfold Command.Proper
  split <;> infer_instance

/-- `def` explains a word if and only if some line that starts with it is a command. -/
theorem shell_commands_in_sync (w : List Byte) : (shellDefEntry w).isSome = true ↔
    ∃ cmd, 0 ∉ cmd ∧ firstWord cmd = w ∧ (shellCommand cmd).Proper := by
  rw [shellDefEntry_isSome]
  constructor
  · have hsample : ∀ w ∈ commandWords, ∃ cmd ∈ sampleLines, 0 ∉ cmd ∧ firstWord cmd = w ∧ (shellCommand cmd).Proper := by
      decide +kernel
    intro hw
    obtain ⟨cmd, -, hcmd⟩ := hsample w hw
    exact ⟨cmd, hcmd⟩
  · rintro ⟨cmd, hzero, rfl, hproper⟩
    exact (asks_of_command hzero hproper rfl).word

end HekaOS.Vga
