import CheatEngineLinux.Core.Trainer
import CheatEngineLinux.Library.CLexer

/-!
# The C source of a trainer

`TrainerGenerator::generateSource` (`src/core/trainer.cpp`): the text of the program, as the stream
gets it.

* `cString`, `lineCommentText`: a text of the table in the program.
* `Write`: what the stream gets, code or a text.
* `sourceWrites`, `generateSource`.
-/

namespace CheatEngine.Trainer

open CtFile (CheatEntry CheatTable lit digitsText intText)
open JsonGrammar (Bytes)

/-! ### Texts -/

/-- One character of `cString`. -/
def escapeByte (c : UInt8) : Bytes :=
  if c == 0x5c then [0x5c, 0x5c]
  else if c == 0x22 then [0x5c, 0x22]
  else if c == 0x0a then [0x5c, 0x6e]
  else if c == 0x0d then [0x5c, 0x72]
  else if c == 0x09 then [0x5c, 0x74]
  else if c < 0x20 || 0x7f ≤ c then
    -- three octal digits cannot consume a following hex digit
    [0x5c, 0x30 + c / 64, 0x30 + c / 8 % 8, 0x30 + c % 8]
  else [c]

def escaped (text : Bytes) : Bytes := text.flatMap escapeByte

def cString (text : Bytes) : Bytes := 0x22 :: (escaped text ++ [0x22])

def lineCommentText (text : Bytes) : Bytes :=
  (text.map fun c => if c == 0x0d || c == 0x0a then 0x20 else c).map fun c =>
    if c == 0x5c then 0x2f else c

/-! ### The stream -/

/-- What is written: code, a text as a literal, or a text as the end of a comment. -/
inductive Write
  | code (s : Bytes)
  | text (s : Bytes)
  | comment (s : Bytes)
  deriving Repr, DecidableEq

def Write.bytes : Write → Bytes
  | .code s => s
  | .text s => cString s
  | .comment s => lineCommentText s

def codeLines (lines : List String) : Bytes := lines.flatMap fun line => lit line ++ [0x0a]

def number (n : ℕ) : Bytes := digitsText 10 n

def hasScripts (e : CheatEntry) : Bool := !(e.luaScript.isEmpty && e.autoAsmScript.isEmpty)

/-- `hotkeyText` of the cheat with a number. -/
def hotkeyText (keyIdx : ℕ) (e : CheatEntry) : Bytes :=
  if e.hotkeyKeys.isEmpty then
    if fallbackKey keyIdx < 0 then lit "-" else [UInt8.ofNat (fallbackKey keyIdx).toNat]
  else e.hotkeyKeys

/-- A loop over the records that a trainer writes, with `i` and `keyIdx`. -/
def perCheat (f : ℕ → ℕ → CheatEntry → List Write) : ℕ → ℕ → List CheatEntry → List Write
  | _, _, [] => []
  | i, keyIdx, e :: entries =>
    if trainerWritable e then f i keyIdx e ++ perCheat f (i + 1) (keyIdx + 1) entries
    else perCheat f (i + 1) keyIdx entries

def headerLines : Bytes := codeLines
  ["#define _GNU_SOURCE",
   "#include <stdio.h>",
   "#include <stdlib.h>",
   "#include <string.h>",
   "#include <stdint.h>",
   "#include <ctype.h>",
   "#include <dirent.h>",
   "#include <unistd.h>",
   "#include <sys/uio.h>",
   "#include <sys/select.h>",
   "#include <errno.h>",
   "#include <signal.h>",
   "#include <termios.h>",
   "",
   "static int target_pid = 0;",
   ""]

def scriptsEndLines : Bytes := codeLines ["\x7d;"] ++
  lit "static const int embedded_script_count = " ++ codeLines
  ["sizeof(embedded_scripts) / sizeof(embedded_scripts[0]);",
   ""]

def helperLines : Bytes := codeLines
  ["static int is_numeric_name(const char* s) \x7b",
   "    if (!s || !*s) return 0;",
   "    while (*s) \x7b if (!isdigit((unsigned char)*s++)) return 0; \x7d",
   "    return 1;",
   "\x7d",
   "",
   "static int find_process_by_name(const char* name) \x7b",
   "    DIR* dir = opendir(\"/proc\");",
   "    if (!dir) return 0;",
   "    struct dirent* ent;",
   "    while ((ent = readdir(dir)) != NULL) \x7b",
   "        if (!is_numeric_name(ent->d_name)) continue;",
   "        char path[256];",
   "        snprintf(path, sizeof(path), \"/proc/%s/comm\", ent->d_name);",
   "        FILE* f = fopen(path, \"r\");",
   "        if (!f) continue;",
   "        char comm[256] = \x7b0\x7d;",
   "        if (fgets(comm, sizeof(comm), f)) \x7b",
   "            comm[strcspn(comm, \"\\r\\n\")] = 0;",
   "            if (strcmp(comm, name) == 0) \x7b",
   "                fclose(f);",
   "                closedir(dir);",
   "                return atoi(ent->d_name);",
   "            \x7d",
   "        \x7d",
   "        fclose(f);",
   "    \x7d",
   "    closedir(dir);",
   "    return 0;",
   "\x7d",
   "",
   "static int hotkey_matches(int c, const char* spec, int fallback) \x7b",
   "    if (!spec || !*spec) return c == fallback;"] ++
  lit "    if (strlen(spec) == 1) return " ++ codeLines
  ["tolower((unsigned char)c) == tolower((unsigned char)spec[0]);",
   "    if (strncmp(spec, \"Ctrl+\", 5) == 0 && spec[5] && !spec[6]) \x7b",
   "        return c == (tolower((unsigned char)spec[5]) & 0x1f);",
   "    \x7d",
   "    if (strncmp(spec, \"Shift+\", 6) == 0 && spec[6] && !spec[7]) \x7b",
   "        return c == toupper((unsigned char)spec[6]);",
   "    \x7d",
   "    return c == fallback;",
   "\x7d",
   "",
   "static int rpm(void* addr, void* buf, size_t sz) \x7b",
   "    struct iovec l = \x7bbuf, sz\x7d, r = \x7baddr, sz\x7d;",
   "    return process_vm_readv(target_pid, &l, 1, &r, 1, 0) >= 0;",
   "\x7d",
   "",
   "static int wpm(void* addr, void* buf, size_t sz) \x7b",
   "    struct iovec l = \x7bbuf, sz\x7d, r = \x7baddr, sz\x7d;",
   "    return process_vm_writev(target_pid, &l, 1, &r, 1, 0) >= 0;",
   "\x7d",
   ""]

def uiLines : Bytes := codeLines
  ["    printf(\"Target PID: %d\\n\\n\", target_pid);",
   "    if (*embedded_table_lua || embedded_script_count > 0) \x7b"] ++
  lit "        printf(\"Embedded scripts: table=%s entries=%d\\n\\n\", " ++ codeLines
  ["*embedded_table_lua ? \"yes\" : \"no\", embedded_script_count);",
   "    \x7d",
   "    printf(\"Cheats:\\n\");"]

def uiEndLines : Bytes := codeLines
  ["    printf(\"\\nPress listed hotkeys to toggle. Ctrl+C to exit.\\n\");",
   "    fflush(stdout);",
   "\x7d",
   "",
   "static volatile int running = 1;",
   "static void sighandler(int s) \x7b running = 0; \x7d",
   "",
   "static void freeze_loop() \x7b",
   "    while (running) \x7b"]

def freezeEndLines : Bytes := codeLines
  ["        usleep(100000);",
   "    \x7d",
   "\x7d",
   "",
   "int main(int argc, char** argv) \x7b",
   "    if (argc >= 2) target_pid = atoi(argv[1]);"]

def usageLines : Bytes := codeLines
  ["    if (target_pid <= 0) \x7b",
   "        printf(\"Usage: %s <pid>\\n\", argv[0]);"]

def mainLines : Bytes := codeLines
  ["        return 1;",
   "    \x7d",
   "    signal(SIGINT, sighandler);",
   "    // Non-blocking terminal input",
   "    struct termios oldt, newt;",
   "    tcgetattr(0, &oldt);",
   "    newt = oldt;",
   "    newt.c_lflag &= ~(ICANON | ECHO);",
   "    tcsetattr(0, TCSANOW, &newt);",
   "",
   "    print_trainer_ui();",
   "",
   "    while (running) \x7b",
   "        fd_set fds; FD_ZERO(&fds); FD_SET(0, &fds);",
   "        struct timeval tv = \x7b0, 100000\x7d;",
   "        int ready = select(1, &fds, NULL, NULL, &tv);",
   "        if (ready < 0 && errno != EINTR) break;",
   "        if (ready > 0) \x7b",
   "            unsigned char c;",
   "            ssize_t got = read(0, &c, 1);",
   "            if (got == 0 || (got < 0 && errno != EINTR && errno != EAGAIN)) break;",
   "            if (got < 0) continue;"]

def activeLines : Bytes := codeLines
  ["        \x7d",
   "        // Freeze active cheats"]

def exitLines : Bytes := codeLines
  ["    \x7d",
   "",
   "    tcsetattr(0, TCSANOW, &oldt);",
   "    printf(\"\\nTrainer exited.\\n\");",
   "    return 0;",
   "\x7d"]

/-! ### The loops -/

/-- A row of `embedded_scripts`. -/
def scriptRow (e : CheatEntry) : List Write :=
  if hasScripts e then
    [.code (lit "    \x7b"), .text e.description, .code (lit ", "), .text e.luaScript,
      .code (lit ", "), .text e.autoAsmScript, .code (codeLines ["\x7d,"])]
  else []

def toggleCheat (i : ℕ) (_ : ℕ) (_ : CheatEntry) : List Write :=
  [.code (lit "static int cheat_" ++ number i ++ codeLines ["_enabled = 0;"]),
    .code (lit "static void toggle_cheat_" ++ number i ++ codeLines ["() \x7b"]),
    .code (lit "    cheat_" ++ number i ++ lit "_enabled = !cheat_" ++ number i ++
      codeLines ["_enabled;", "\x7d", ""])]

def cheatLine (i keyIdx : ℕ) (e : CheatEntry) : List Write :=
  [.code (lit "    printf(\"  [%c] %-12s %s\\n\", " ++ (lit "cheat_" ++ number i ++
      lit "_enabled ? ") ++ lit "'x' : ' ', "),
    .text (hotkeyText keyIdx e), .code (lit ", "), .text e.description, .code (codeLines [");"])]

def freezeCheat (conv : ValueIo.Converters) (i : ℕ) (_ : ℕ) (e : CheatEntry) : List Write :=
  if e.value.isEmpty then []
  else
    match freezeWriteBody conv e with
    | none => []
    | some body =>
      [.code (lit "        if (cheat_" ++ number i ++ codeLines ["_enabled) \x7b"]),
        .code (lit "            " ++ body ++ codeLines [""]), .code (codeLines ["        \x7d"])]

def cheatKey (i keyIdx : ℕ) (e : CheatEntry) : List Write :=
  [.code (lit "            if (hotkey_matches((unsigned char)c, "), .text e.hotkeyKeys,
    .code (lit ", " ++ intText (fallbackKey keyIdx) ++ lit ")) \x7b toggle_cheat_" ++ number i ++
      codeLines ["(); print_trainer_ui(); \x7d"])]

def sourceWrites (conv : ValueIo.Converters) (table : CheatTable) : List Write :=
  ([.code (lit "// Auto-generated trainer for: "), .comment table.gameName, .code (codeLines [""]),
    .code (lit "// Author: "), .comment table.author, .code (codeLines [""]),
    .code headerLines,
    .code (lit "static const char* embedded_table_lua = "), .text table.luaScript,
    .code (codeLines [";"]),
    .code (lit "struct embedded_script_record \x7b " ++ codeLines
      ["const char* description; const char* lua; const char* autoasm; \x7d;",
       "static const struct embedded_script_record embedded_scripts[] = \x7b"])] : List Write) ++
  table.entries.flatMap scriptRow ++
  ([.code scriptsEndLines, .code helperLines] : List Write) ++
  perCheat toggleCheat 0 0 table.entries ++
  ([.code (codeLines ["static void print_trainer_ui() \x7b", "    printf(\"\\033[2J\\033[H\");"]),
    .code (lit "    printf(\"Trainer for: %s\\n\", "), .text table.gameName,
    .code (codeLines [");"]), .code uiLines] : List Write) ++
  perCheat cheatLine 0 0 table.entries ++
  ([.code uiEndLines] : List Write) ++
  perCheat (freezeCheat conv) 0 0 table.entries ++
  ([.code freezeEndLines,
    .code (lit "    else target_pid = find_process_by_name("), .text table.gameName,
    .code (codeLines [");"]), .code usageLines,
    .code (lit "        printf(\"Auto-detection did not find process: %s\\n\", "),
    .text table.gameName, .code (codeLines [");"]), .code mainLines] : List Write) ++
  perCheat cheatKey 0 0 table.entries ++
  ([.code activeLines] : List Write) ++
  perCheat (freezeCheat conv) 0 0 table.entries ++
  ([.code exitLines] : List Write)

/-- `TrainerGenerator::generateSource` -/
def generateSource (conv : ValueIo.Converters) (table : CheatTable) : Bytes :=
  (sourceWrites conv table).flatMap Write.bytes

end CheatEngine.Trainer
