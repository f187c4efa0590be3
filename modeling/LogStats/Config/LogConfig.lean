import LogStats.Config.Strip
import LogStats.Keeper.HouseKeeper
import LogStats.Keeper.LogReader
import LogStats.Library.Decimal

/-! # The configuration file, log_utils.c

What the source leaves undefined is `none`: a string that is too long for its array, more sockets than there are
places, and a line without `=`, where `p++` makes an address of NULL that `strip` then reads from.
-/
namespace LogStats

def redisInstance : ℕ := 100

/-- A string in an array of so many bytes. -/
abbrev CharArray (size : ℕ) := {s : CString // s.strlen < size}

abbrev Sockets := {socks : List CString // socks.length ≤ redisInstance}

structure Config where
  filename : CharArray 100
  ethDev : CharArray 20
  serverIp : CharArray 20
  serverPort : Int32
  serverMgrPort : Int32
  maxLine : Int32
  enableAuto : Int32
  homeDir : CharArray 128
  filePrefix : CharArray 128
  maxFileCount : Int32
  fileSizeLimit : Int32
  redisUnixSock : Sockets
  logIp : CharArray 100

/-- The keys of the file. -/
inductive ConfigKey where
  | ethDev
  | enableAuto
  | redisSockPath
  | serverIp
  | serverPort
  | serverMgrPort
  | maxLine
  | homeDir
  | filePrefix
  | fileSizeLimit
  | maxFileCount
  | logIp
deriving DecidableEq

def ConfigKey.name : ConfigKey → CString
  | .ethDev => text "eth_dev"
  | .enableAuto => text "enable_auto"
  | .redisSockPath => text "redis_sock_path"
  | .serverIp => text "server_ip"
  | .serverPort => text "server_port"
  | .serverMgrPort => text "server_mgr_port"
  | .maxLine => text "max_line"
  | .homeDir => text "home_dir"
  | .filePrefix => text "file_prefix"
  | .fileSizeLimit => text "file_size_limit"
  | .maxFileCount => text "max_file_count"
  | .logIp => text "log_ip"

def strcpy (size : ℕ) (s : CString) : Option (CharArray size) :=
  if h : s.strlen < size then some ⟨s,h⟩ else none

def noSockets : Sockets := ⟨[],Nat.zero_le _⟩

/-- The loop that stores one token after the other. -/
def addSockets (socks : Sockets) (tokens : List CString) : Option Sockets :=
  if h : (socks.val ++ tokens).length ≤ redisInstance then some ⟨socks.val ++ tokens,h⟩ else none

namespace Config

/-- The branch of `config_create` for a key. -/
def assign (conf : Config) (p : CString) : ConfigKey → Option Config
  | .ethDev => (strcpy 20 p).map fun s => { conf with ethDev := s }
  | .enableAuto => some { conf with enableAuto := atoi p }
  | .redisSockPath => (addSockets conf.redisUnixSock (strtok p)).map fun socks => { conf with redisUnixSock := socks }
  | .serverIp => (strcpy 20 p).map fun s => { conf with serverIp := s }
  | .serverPort => some { conf with serverPort := atoi p }
  | .serverMgrPort => some { conf with serverMgrPort := atoi p }
  | .maxLine => some { conf with maxLine := atoi p }
  | .homeDir => (strcpy 128 p).map fun s => { conf with homeDir := s }
  | .filePrefix => (strcpy 128 p).map fun s => { conf with filePrefix := s }
  | .fileSizeLimit => some { conf with fileSizeLimit := atoi p }
  | .maxFileCount => some { conf with maxFileCount := atoi p }
  | .logIp => (strcpy 100 p).map fun s => { conf with logIp := s }

/-- What `config_output` prints behind the `=`. -/
def shown (conf : Config) : ConfigKey → CString
  | .ethDev => conf.ethDev.val
  | .enableAuto => decimal conf.enableAuto
  | .redisSockPath => conf.redisUnixSock.val.foldr (fun sock socks => sock ++ text " " ++ socks) (text "")
  | .serverIp => conf.serverIp.val
  | .serverPort => decimal conf.serverPort
  | .serverMgrPort => decimal conf.serverMgrPort
  | .maxLine => decimal conf.maxLine
  | .homeDir => conf.homeDir.val
  | .filePrefix => conf.filePrefix.val
  | .fileSizeLimit => decimal conf.fileSizeLimit
  | .maxFileCount => decimal conf.maxFileCount
  | .logIp => conf.logIp.val

end Config

/-- The keys in the order in which `config_create` compares them. -/
def comparedKeys : List ConfigKey :=
  [.ethDev,.enableAuto,.redisSockPath,.serverIp,.serverPort,.serverMgrPort,.maxLine,.homeDir,.filePrefix,.fileSizeLimit,
    .maxFileCount,.logIp]

def Config.set (conf : Config) (key p : CString) : Option Config :=
  match comparedKeys.find? fun k => CString.strcmp k.name key = 0 with
  | some k => conf.assign p k
  | none => some conf

/-- The body of the loop of `config_create`. -/
def configLine (conf : Config) (strbuf : List UInt8) : Option Config :=
  let tempconf := strbuf ++ [0]
  let len := (CString.read tempconf).strlen
  if len ≤ 1 then some conf
  else if tempconf.head? = some 35 then some conf
  else
    let tempconf := stripBuffer (tempconf.set (len - 1) 0)
    match (CString.read tempconf).strchr 61 with
    | none => none
    | some p =>
      let tempconf := stripBuffer (tempconf.set p 0)
      let value := stripBuffer (tempconf.drop (p + 1))
      conf.set (CString.read tempconf) (CString.read value)

/-- What one call of `fgets` after the other gives. -/
def fgetsAll (size : ℕ) : ℕ → List UInt8 → List (List UInt8)
  | 0, _ => []
  | fuel + 1, stream =>
    match fgets size stream with
    | none => []
    | some strbuf => strbuf :: fgetsAll size fuel (stream.drop strbuf.length)

def fileLines (stream : List UInt8) : List (List UInt8) := fgetsAll 1024 stream.length stream

/-- `config_create`, where `conf` is what malloc gave, and `file` what can be read, unless there is no file. -/
def configCreate (conf : Config) (filename : CString) (file : Option (List UInt8)) : Option Config :=
  match file with
  | none => some conf
  | some stream => do
    let filename ← strcpy 100 filename
    (fileLines stream).foldlM configLine { conf with filename := filename, redisUnixSock := noSockets }

/-- The keys in the order in which `config_output` prints them. -/
def printedKeys : List ConfigKey :=
  [.ethDev,.serverIp,.serverPort,.serverMgrPort,.maxLine,.homeDir,.enableAuto,.filePrefix,.fileSizeLimit,.maxFileCount,
    .redisSockPath,.logIp]

def printedLine (conf : Config) (k : ConfigKey) : CString := k.name ++ text " = " ++ conf.shown k

def configOutput (conf : Config) : List UInt8 := joined (printedKeys.map (printedLine conf))

end LogStats
