import CkGit.Base.Search
import CkGit.Ci.Names

/-!
What redactRemoteUrl shows of a remote URL (src/common/remote_url.cpp).
-/
namespace CkGit.Remote
open CkGit.Base CkGit.Ci

def sign : UInt8 := '@'.toUInt8

def endsAuthority (byte : UInt8) : Bool := byte == slash || byte == '?'.toUInt8 || byte == '#'.toUInt8

def redactRemoteUrl (raw_url : Bytes) : Bytes :=
  match findPiece (ascii "://") raw_url with
  | none => raw_url
  | some scheme =>
    let authority_start := scheme + 3
    let authority_end := findFrom endsAuthority raw_url authority_start
    match findFrom (· == sign) raw_url authority_start with
    | none => raw_url
    | some at_ =>
      if authority_end.any (· < at_) then raw_url
      else match findFrom (· == colon) raw_url authority_start with
      | none => raw_url
      | some colon_at =>
        if at_ < colon_at then raw_url
        else raw_url.take (colon_at + 1) ++ ascii "***" ++ raw_url.drop at_

end CkGit.Remote
