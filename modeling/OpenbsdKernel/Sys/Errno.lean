/-!
# Error numbers

The `errno` values returned by the modelled functions; success is `none`.
-/
namespace OpenbsdKernel

inductive Errno where
  | EPERM | EINTR | EBADF | EAGAIN | ENOMEM | EACCES | EBUSY | EINVAL | ENFILE | EMFILE | ENOSPC
  | EDEADLK | ENOLCK | ERESTART | E2BIG | EFBIG | EIDRM | ERANGE | EEXIST | ENOENT
  | EPIPE | EFAULT | ENOBUFS | EMSGSIZE | ENODEV | ESRCH | EAFNOSUPPORT
  deriving DecidableEq, Repr

end OpenbsdKernel
